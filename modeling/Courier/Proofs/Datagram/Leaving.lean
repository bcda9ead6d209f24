import Courier.Proofs.Datagram.Life
import Mathlib.Data.List.Induction

/-!
The invariant of a channel's life: a message is in the queue until it leaves in one of
four ways, it leaves as sent only if it was, and the numbers of those that were given up
are remembered until a late tick forgets them.
-/

namespace Courier.Datagram.Life

open Outbound

/-! ## One more fact -/

section Cons

variable {c : Config} {n : UInt64} {f : Fact} {log : List Fact}

theorem exits_cons : exits n (f :: log) = (f.exit? n).toList ++ exits n log := by
  unfold exits
  cases hf : f.exit? n <;> simp [hf]

theorem Acked.cons {i : Nat} (h : Acked n i log) (f : Fact) : Acked n i (f :: log) := by
  obtain ⟨packet, settled, ack, payload, hm, h⟩ := h
  exact ⟨packet, settled, ack, payload, List.mem_cons_of_mem f hm, h⟩

theorem Written.cons {i : Nat} (h : Written n i log) (f : Fact) : Written n i (f :: log) := by
  obtain ⟨o, hm, h⟩ := h
  exact ⟨o, List.mem_cons_of_mem f hm, h⟩

theorem Sent.cons (h : Sent c n log) (f : Fact) : Sent c n (f :: log) := by
  obtain ⟨dest, data, reliable, total, hreg, hcount, hall⟩ := h
  refine ⟨dest, data, reliable, total, List.mem_cons_of_mem f hreg, hcount, fun i hi => ?_⟩
  have := hall i hi
  cases reliable
  · exact Written.cons this f
  · exact Acked.cons this f

theorem forgotten_cons : Forgotten c n (f :: log) ↔ Forgotten c n log ∨
    ∃ now abandoned finished t, f = .ticked now abandoned finished ∧
      .abandoned t ∈ exits n log ∧ c.completedRetention.nanos ≤ now - t := by
  constructor
  · rintro ⟨later, now, abandoned, finished, earlier, t, heq, ht, hlate⟩
    cases later with
    | nil =>
      obtain ⟨rfl, rfl⟩ := List.cons.inj heq
      exact Or.inr ⟨now, abandoned, finished, t, rfl, ht, hlate⟩
    | cons g later =>
      exact Or.inl ⟨later, now, abandoned, finished, earlier, t, (List.cons.inj heq).2, ht, hlate⟩
  · rintro (⟨later, now, abandoned, finished, earlier, t, heq, ht, hlate⟩ |
      ⟨now, abandoned, finished, t, rfl, ht, hlate⟩)
    · exact ⟨f :: later, now, abandoned, finished, earlier, t, by rw [heq]; rfl, ht, hlate⟩
    · exact ⟨[], now, abandoned, finished, log, t, rfl, ht, hlate⟩

end Cons

/-! ## The invariant -/

structure Sound (c : Config) (l : Life) : Prop where
  queue : l.channel.outbound.Sound
  size : l.channel.outbound.chunkSize = c.chunkSize
  numbered : ∀ n dest data r, .registered n dest data r ∈ l.log →
    n.toNat < l.channel.outbound.nextNumber.toNat
  origin : ∀ n m, l.channel.outbound.find? n = some m →
    ∃ data, .registered n m.dest data m.reliable ∈ l.log ∧ m.CutFrom c.chunkSize data
  picked : ∀ o ∈ l.hand, o.header.sequence.toNat < l.channel.outbound.nextNumber.toNat
  /-- a message counts its chunks in hand -/
  queued : ∀ n m, l.channel.outbound.find? n = some m →
    m.queued = l.hand.countP (·.header.sequence == n)
  /-- each chunk that a message counts as sent is in hand or was written -/
  covered : ∀ n m, l.channel.outbound.find? n = some m → ∀ i < m.firstUnsent,
    Written n i l.log ∨ ∃ o ∈ l.hand, o.header.sequence = n ∧ o.header.index.toNat = i
  acked : ∀ n m, l.channel.outbound.find? n = some m → ∀ i ∈ m.acked, Acked n i l.log
  stays : ∀ n m, l.channel.outbound.find? n = some m → exits n l.log = []
  leaves : ∀ n dest data r, .registered n dest data r ∈ l.log →
    l.channel.outbound.find? n = none → ∃ e, exits n l.log = [e]
  known : ∀ n, exits n l.log ≠ [] → ∃ dest data r, .registered n dest data r ∈ l.log
  honest : ∀ n, .acknowledged ∈ exits n l.log ∨ .finished ∈ exits n l.log → Sent c n l.log
  remembered : ∀ n t, (n, t) ∈ l.channel.abandoned ↔
    .abandoned t ∈ exits n l.log ∧ ¬ Forgotten c n l.log

theorem sound_init (c : Config) (family : Ip.Family) : Sound c (init c family) where
  queue := ⟨List.nodup_nil, by simp [init, Channel.ofConfig], by simp [init, Channel.ofConfig]⟩
  size := rfl
  numbered := by simp [init]
  origin := by simp [init, Channel.ofConfig, Queue.find?]
  picked := by simp [init]
  queued := by simp [init, Channel.ofConfig, Queue.find?]
  covered := by simp [init, Channel.ofConfig, Queue.find?]
  acked := by simp [init, Channel.ofConfig, Queue.find?]
  stays := by simp [init, exits]
  leaves := by simp [init]
  known := by simp [init, exits]
  honest := by simp [init, exits]
  remembered := by simp [init, Channel.ofConfig, exits]

/-- A message leaves once. -/
theorem Sound.exits_eq {c : Config} {l : Life} (h : Sound c l) {n : UInt64} {e : Exit}
    (he : e ∈ exits n l.log) : exits n l.log = [e] := by
  obtain ⟨dest, data, r, hreg⟩ := h.known n (List.ne_nil_of_mem he)
  cases hm : l.channel.outbound.find? n with
  | some m =>
    rw [h.stays n m hm] at he
    cases he
  | none =>
    obtain ⟨e', heq⟩ := h.leaves n dest data r hreg hm
    rw [heq, List.mem_singleton] at he
    rw [heq, he]

/-! ## Messages that leave -/

/-- What a step does that may take messages out of the queue. -/
structure Leaving (c : Config) (l l' : Life) (f : Fact) : Prop where
  queue : l'.channel.outbound.Sound
  fields : l'.channel.outbound.chunkSize = l.channel.outbound.chunkSize ∧
    l'.channel.outbound.maxFlight = l.channel.outbound.maxFlight ∧
    l'.channel.outbound.nextNumber = l.channel.outbound.nextNumber
  hand : l'.hand = l.hand
  log : l'.log = f :: l.log
  news : ∀ n dest data r, f ≠ .registered n dest data r
  exit : ∀ n, f.exit? n = none ↔ n ∉ l.channel.outbound.gone l'.channel.outbound
  message : ∀ n m', l'.channel.outbound.find? n = some m' →
    ∃ m, l.channel.outbound.find? n = some m ∧ Message.Kin m m' ∧ m'.queued = m.queued ∧
      m'.firstUnsent = m.firstUnsent ∧ ∀ i ∈ m'.acked, i ∈ m.acked ∨ Acked n i (f :: l.log)
  acknowledged : ∀ n m, l.channel.outbound.find? n = some m → f.exit? n = some .acknowledged →
    m.reliable = true ∧ ∀ i < m.total, i ∈ m.acked ∨ Acked n i (f :: l.log)
  finished : ∀ n m, l.channel.outbound.find? n = some m → f.exit? n = some .finished →
    m.reliable = false ∧ m.firstUnsent = m.total ∧ m.queued = 0

section Leaves

variable {c : Config} {l l' : Life} {f : Fact} {n : UInt64}

theorem Leaving.registered_before (hs : Leaving c l l' f) {dest : SocketAddr} {data : Bytes}
    {r : Bool} (hm : .registered n dest data r ∈ l'.log) : .registered n dest data r ∈ l.log := by
  rw [hs.log] at hm
  exact (List.mem_cons.mp hm).resolve_left (hs.news _ _ _ _).symm

/-- Only a message that was in the queue leaves it. -/
theorem Leaving.of_exit (hs : Leaving c l l' f) (h : Sound c l) (hne : f.exit? n ≠ none) :
    (∃ m, l.channel.outbound.find? n = some m) ∧ l'.channel.outbound.find? n = none :=
  (Queue.mem_gone h.queue).mp (by_contra fun hg => hne ((hs.exit n).mpr hg))

theorem Leaving.stays (hs : Leaving c l l' f) (h : Sound c l) {m' : Message}
    (hm' : l'.channel.outbound.find? n = some m') : exits n l'.log = [] := by
  obtain ⟨m, hm, _⟩ := hs.message n m' hm'
  have hnone : f.exit? n = none := by
    by_contra hne
    cases (hs.of_exit h hne).2.symm.trans hm'
  rw [hs.log, exits_cons, hnone, h.stays n m hm]
  rfl

theorem Leaving.leaves (hs : Leaving c l l' f) (h : Sound c l) {dest : SocketAddr} {data : Bytes}
    {r : Bool} (hm : .registered n dest data r ∈ l'.log)
    (hnone : l'.channel.outbound.find? n = none) : ∃ e, exits n l'.log = [e] := by
  rw [hs.log, exits_cons]
  cases hfind : l.channel.outbound.find? n with
  | none =>
    have hstay : f.exit? n = none := by
      by_contra hne
      obtain ⟨⟨m, hm⟩, _⟩ := hs.of_exit h hne
      cases hfind.symm.trans hm
    rw [hstay]
    exact h.leaves n dest data r (hs.registered_before hm) hfind
  | some m =>
    have hgone := (Queue.mem_gone h.queue).mpr ⟨⟨m, hfind⟩, hnone⟩
    obtain ⟨e, he⟩ := Option.ne_none_iff_exists'.mp fun hn => (hs.exit n).mp hn hgone
    exact ⟨e, by rw [he, h.stays n m hfind]; rfl⟩

theorem Leaving.known (hs : Leaving c l l' f) (h : Sound c l) (hne : exits n l'.log ≠ []) :
    ∃ dest data r, .registered n dest data r ∈ l'.log := by
  rw [hs.log] at hne ⊢
  rw [exits_cons] at hne
  by_cases hf : f.exit? n = none
  · rw [hf] at hne
    obtain ⟨dest, data, r, hreg⟩ := h.known n hne
    exact ⟨dest, data, r, List.mem_cons_of_mem f hreg⟩
  · obtain ⟨⟨m, hm⟩, _⟩ := hs.of_exit h hf
    obtain ⟨data, hreg, _⟩ := h.origin n m hm
    exact ⟨m.dest, data, m.reliable, List.mem_cons_of_mem f hreg⟩

/-- A message that leaves as sent was sent. -/
theorem Leaving.sent (hs : Leaving c l l' f) (h : Sound c l) {m : Message}
    (hm : l.channel.outbound.find? n = some m)
    (he : f.exit? n = some .acknowledged ∨ f.exit? n = some .finished) :
    Sent c n (f :: l.log) := by
  obtain ⟨data, hreg, hcut⟩ := h.origin n m hm
  refine ⟨m.dest, data, m.reliable, m.total, List.mem_cons_of_mem f hreg, hcut.count?_eq, ?_⟩
  intro i hi
  rcases he with he | he
  · obtain ⟨hrel, hall⟩ := hs.acknowledged n m hm he
    rw [hrel]
    exact (hall i hi).elim (fun hi => (h.acked n m hm i hi).cons f) id
  · obtain ⟨hrel, hsent, hidle⟩ := hs.finished n m hm he
    rw [hrel]
    refine (h.covered n m hm i (by omega)).elim (·.cons f) fun ⟨o, ho, hon, _⟩ => ?_
    -- no chunk of the message is in hand any more
    have := h.queued n m hm
    rw [hidle] at this
    simpa [hon] using List.countP_eq_zero.mp this.symm o ho

theorem Leaving.honest (hs : Leaving c l l' f) (h : Sound c l)
    (he : .acknowledged ∈ exits n l'.log ∨ .finished ∈ exits n l'.log) : Sent c n l'.log := by
  rw [hs.log] at he ⊢
  rw [exits_cons] at he
  by_cases hf : f.exit? n = none
  · rw [hf] at he
    exact (h.honest n he).cons f
  · obtain ⟨⟨m, hm⟩, _⟩ := hs.of_exit h hf
    rw [h.stays n m hm, List.append_nil] at he
    exact hs.sent h hm (by simpa [eq_comm] using he)

theorem Sound.leaving (h : Sound c l) (hs : Leaving c l l' f)
    (hr : ∀ n t, (n, t) ∈ l'.channel.abandoned ↔
      .abandoned t ∈ exits n l'.log ∧ ¬ Forgotten c n l'.log) : Sound c l' where
  queue := hs.queue
  size := hs.fields.1.trans h.size
  numbered := fun n dest data r hm => by
    rw [hs.fields.2.2]
    exact h.numbered n dest data r (hs.registered_before hm)
  origin := fun n m' hm' => by
    obtain ⟨m, hm, hkin, _⟩ := hs.message n m' hm'
    obtain ⟨data, hreg, hcut⟩ := h.origin n m hm
    refine ⟨data, ?_, hcut.kin hkin⟩
    rw [hs.log, hkin.dest, hkin.reliable]
    exact List.mem_cons_of_mem f hreg
  picked := fun o ho => by
    rw [hs.hand] at ho
    rw [hs.fields.2.2]
    exact h.picked o ho
  queued := fun n m' hm' => by
    obtain ⟨m, hm, _, hq, _⟩ := hs.message n m' hm'
    rw [hs.hand, hq]
    exact h.queued n m hm
  covered := fun n m' hm' i hi => by
    obtain ⟨m, hm, _, _, hf, _⟩ := hs.message n m' hm'
    rw [hs.hand, hs.log]
    exact (h.covered n m hm i (hf ▸ hi)).imp (·.cons f) id
  acked := fun n m' hm' i hi => by
    obtain ⟨m, hm, _, _, _, ha⟩ := hs.message n m' hm'
    rw [hs.log]
    exact (ha i hi).elim (fun hi => (h.acked n m hm i hi).cons f) id
  stays := fun _ _ hm' => hs.stays h hm'
  leaves := fun _ _ _ _ hm hnone => hs.leaves h hm hnone
  known := fun _ hne => hs.known h hne
  honest := fun _ he => hs.honest h he
  remembered := hr

end Leaves

/-- A fact that forgets nothing. -/
theorem Sound.remembers {c : Config} {l : Life} (h : Sound c l) {f : Fact}
    (hf : ∀ now abandoned finished, f ≠ .ticked now abandoned finished)
    (he : ∀ n t, f.exit? n ≠ some (.abandoned t)) (n : UInt64) (t : Instant) :
    (n, t) ∈ l.channel.abandoned ↔
      .abandoned t ∈ exits n (f :: l.log) ∧ ¬ Forgotten c n (f :: l.log) := by
  have hforgotten : Forgotten c n (f :: l.log) ↔ Forgotten c n l.log := by
    rw [forgotten_cons]
    exact or_iff_left fun ⟨now, abandoned, finished, _, heq, _⟩ => hf now abandoned finished heq
  have hexits : .abandoned t ∈ exits n (f :: l.log) ↔ .abandoned t ∈ exits n l.log := by
    rw [exits_cons, List.mem_append]
    exact or_iff_right fun hm => he n t (by simpa using hm)
  rw [hforgotten, hexits]
  exact h.remembered n t

/-! ## Each step keeps it -/

section Steps

variable {c : Config} {l : Life}

/-- A datagram that is no acknowledgement leaves the queue as it is. -/
theorem receive_cases (ch : Channel) (c : Config) (now : Instant) (sender : SocketAddr)
    (packet : Bytes) : (ch.receive c now sender packet).2.abandoned = ch.abandoned ∧
      ((ch.receive c now sender packet).2.outbound = ch.outbound ∨
        ∃ ack payload, Chunk.Header.decode packet = .ok (ack, payload) ∧ ack.kind = .ack ∧
          (ch.receive c now sender packet).2.outbound = (ch.outbound.acknowledge ack).2) := by
  unfold Channel.receive
  split
  · exact ⟨rfl, Or.inl rfl⟩
  · cases hd : Chunk.Header.decode packet with
    | error => exact ⟨rfl, Or.inl rfl⟩
    | ok r =>
      dsimp only
      split
      · exact ⟨rfl, Or.inr ⟨r.1, r.2, rfl, ‹_›, rfl⟩⟩
      · rw [receiveChunk_snd]
        exact ⟨rfl, Or.inl rfl⟩

theorem exit?_received_eq_some {packet : Bytes} {settled : List UInt64} {n : UInt64} {e : Exit}
    (he : (Fact.received packet settled).exit? n = some e) : n ∈ settled ∧ e = .acknowledged := by
  change (if n ∈ settled then some Exit.acknowledged else none) = some e at he
  split at he
  · exact ⟨‹_›, (Option.some.inj he).symm⟩
  · cases he

/-- The channel after a datagram. -/
def heard (l : Life) (packet : Bytes) (ch : Channel) : Life :=
  { l with
    channel := ch
    log := .received packet (l.channel.outbound.gone ch.outbound) :: l.log }

theorem leaving_ignored (h : Sound c l) (packet : Bytes) {ch : Channel}
    (hsame : ch.outbound = l.channel.outbound) : Leaving c l (l.heard packet ch)
      (.received packet (l.channel.outbound.gone ch.outbound)) where
  queue := hsame ▸ h.queue
  fields := by
    show ch.outbound.chunkSize = _ ∧ ch.outbound.maxFlight = _ ∧ ch.outbound.nextNumber = _
    rw [hsame]
    exact ⟨rfl, rfl, rfl⟩
  hand := rfl
  log := rfl
  news := by simp
  exit := fun n => by simp [Fact.exit?, heard]
  message := fun n m' hm' => by
    change ch.outbound.find? n = some m' at hm'
    rw [hsame] at hm'
    exact ⟨m', hm', .refl _, rfl, rfl, fun i hi => Or.inl hi⟩
  acknowledged := fun n m hm he => by
    have hgone := ((Queue.mem_gone h.queue).mp (exit?_received_eq_some he).1).2
    rw [hsame] at hgone
    cases hgone.symm.trans hm
  finished := fun n m hm he => by cases (exit?_received_eq_some he).2

theorem leaving_acknowledged (h : Sound c l) {packet payload : Bytes} {ch : Channel}
    {ack : Chunk.Header} (hdecode : Chunk.Header.decode packet = .ok (ack, payload))
    (hkind : ack.kind = .ack) (hack : ch.outbound = (l.channel.outbound.acknowledge ack).2) :
    Leaving c l (l.heard packet ch)
      (.received packet (l.channel.outbound.gone ch.outbound)) := by
  have hacks := Queue.acknowledges_acknowledge l.channel.outbound ack
  obtain ⟨hq, hfields⟩ := h.queue.acknowledges hacks
  have hacked : Acked ack.sequence ack.index.toNat
      (.received packet (l.channel.outbound.gone ch.outbound) :: l.log) :=
    ⟨packet, _, ack, payload, List.mem_cons_self, hdecode, hkind, rfl, rfl⟩
  refine ⟨hack ▸ hq, hack ▸ hfields, rfl, rfl, by simp, fun n => by simp [Fact.exit?, heard], ?_,
    ?_, fun n m hm he => by cases (exit?_received_eq_some he).2⟩
  · intro n m' hm'
    change ch.outbound.find? n = some m' at hm'
    rw [hack] at hm'
    rcases Queue.message_of_acknowledges h.queue hacks hm' with hm | ⟨rfl, m, hm, taken, _⟩
    · exact ⟨m', hm, .refl _, rfl, rfl, fun i hi => Or.inl hi⟩
    · refine ⟨m, hm, Message.kin_of_acknowledge? taken, ?_⟩
      obtain ⟨_, rfl⟩ := Message.acknowledge?_eq_some_iff.mp taken
      refine ⟨rfl, rfl, fun i hi => ?_⟩
      rcases Std.TreeSet.mem_insert.mp hi with heq | hi
      · exact Or.inr (Std.compare_eq_iff_eq.mp heq ▸ hacked)
      · exact Or.inl hi
  · intro n m hm he
    have hgone := (exit?_received_eq_some he).1
    rw [hack] at hgone
    obtain ⟨rfl, m', hm', hr, hall⟩ := Queue.settled_of_gone h.queue hgone
    cases hm.symm.trans hm'
    refine ⟨hr, fun i hi => ?_⟩
    rcases hall i hi with rfl | hi
    · exact Or.inr hacked
    · exact Or.inl hi

theorem Sound.receive (h : Sound c l) (sender : SocketAddr) (packet : Bytes) (now : Instant) :
    Sound c (step c l (.receive sender packet now)) := by
  obtain ⟨habandoned, hcases⟩ := receive_cases l.channel c now sender packet
  show Sound c (l.heard packet (l.channel.receive c now sender packet).2)
  generalize (l.channel.receive c now sender packet).2 = ch at habandoned hcases
  have hremembers := h.remembers (f := .received packet (l.channel.outbound.gone ch.outbound))
    (by simp) (by simp [Fact.exit?])
  rw [← habandoned] at hremembers
  rcases hcases with hsame | ⟨ack, payload, hdecode, hkind, hack⟩
  · exact h.leaving (leaving_ignored h packet hsame) hremembers
  · exact h.leaving (leaving_acknowledged h hdecode hkind hack) hremembers

theorem Sound.close (h : Sound c l) (dest : SocketAddr) : Sound c (step c l (.close dest)) := by
  have hfields := Queue.dropTo_fields h.queue.distinct dest
  show Sound c { l with
    channel := { l.channel with outbound := (l.channel.outbound.dropTo dest).2 }
    log := .closed (l.channel.outbound.gone (l.channel.outbound.dropTo dest).2) :: l.log }
  refine h.leaving (f := .closed (l.channel.outbound.gone (l.channel.outbound.dropTo dest).2))
    ⟨h.queue.dropTo dest, hfields, rfl, rfl, by simp, fun n => by simp [Fact.exit?], ?_, ?_, ?_⟩
    (h.remembers (by simp) (by simp [Fact.exit?]))
  · intro n m' hm'
    rw [Queue.find?_dropTo h.queue, Option.filter_eq_some_iff] at hm'
    exact ⟨m', hm'.1, .refl _, rfl, rfl, fun i hi => Or.inl hi⟩
  · intro n m hm he
    simp [Fact.exit?] at he
  · intro n m hm he
    simp [Fact.exit?] at he

/-- What a tick adds to the log. -/
def tickFact (c : Config) (q : Queue) (now : Instant) : Fact :=
  let (t, q') := q.tick c.resendTickThreshold c.resendThreshold
  .ticked now t.abandoned ((q.gone q').filter (· ∉ t.abandoned))

theorem exit?_tickFact (c : Config) (q : Queue) (now : Instant) (n : UInt64) :
    (tickFact c q now).exit? n =
      if n ∈ (q.tick c.resendTickThreshold c.resendThreshold).1.abandoned then
        some (.abandoned now)
      else if n ∈ q.gone (q.tick c.resendTickThreshold c.resendThreshold).2 then some .finished
      else none := by
  unfold tickFact Fact.exit?
  dsimp only
  by_cases hn : n ∈ (q.tick c.resendTickThreshold c.resendThreshold).1.abandoned <;>
    simp [hn, List.mem_filter]

theorem leaving_tick (h : Sound c l) (now : Instant) :
    Leaving c l (step c l (.tick now)) (tickFact c l.channel.outbound now) := by
  have hexit := exit?_tickFact c l.channel.outbound now
  refine ⟨h.queue.tick _ _, Queue.tick_fields h.queue.distinct _ _, rfl, rfl, ?_, ?_, ?_, ?_, ?_⟩
  · intro n dest data r heq
    cases heq
  · intro n
    show _ ↔ n ∉ l.channel.outbound.gone
      (l.channel.outbound.tick c.resendTickThreshold c.resendThreshold).2
    rw [hexit]
    split
    · simpa using Queue.gone_of_abandoned h.queue ‹_›
    · split <;> simp [*]
  · intro n m' hm'
    obtain ⟨m, t, hm, ht⟩ := Queue.ticks_of_find? h.queue hm'
    refine ⟨m, hm, ht.kin, ?_, ht.same.1, fun i hi => Or.inl (ht.same.2 ▸ hi)⟩
    cases ht <;> rfl
  · intro n m hm he
    rw [hexit] at he
    split at he
    · cases he
    · split at he <;> cases he
  · intro n m hm he
    rw [hexit] at he
    split at he
    · cases he
    · rename_i hnot
      split at he
      · obtain ⟨m', hm', hdone⟩ := Queue.finished_of_gone h.queue ‹_› hnot
        cases hm.symm.trans hm'
        exact hdone
      · cases he

theorem not_forgotten {n : UInt64} {log : List Fact} (he : exits n log = []) :
    ¬ Forgotten c n log := by
  rintro ⟨later, now, abandoned, finished, earlier, t, rfl, ht, _⟩
  unfold exits at he ht
  rw [List.filterMap_append, List.append_eq_nil_iff] at he
  rw [List.filterMap_cons] at he
  split at he
  · rw [he.2] at ht
    cases ht
  · cases he.2

theorem Sound.tick (h : Sound c l) (now : Instant) : Sound c (step c l (.tick now)) := by
  refine h.leaving (leaving_tick h now) fun n t => ?_
  have hexit := exit?_tickFact c l.channel.outbound now n
  show (n, t) ∈ (l.channel.outbound.tick c.resendTickThreshold c.resendThreshold).1.abandoned.map
      (·, now) ++ l.channel.abandoned.filter
        (fun x => now - x.2 < c.completedRetention.nanos) ↔
    .abandoned t ∈ exits n (tickFact c l.channel.outbound now :: l.log) ∧
      ¬ Forgotten c n (tickFact c l.channel.outbound now :: l.log)
  rw [exits_cons, forgotten_cons, hexit, List.mem_append, List.mem_append, List.mem_map,
    List.mem_filter, h.remembered]
  by_cases hn : n ∈ (l.channel.outbound.tick c.resendTickThreshold c.resendThreshold).1.abandoned
  · -- given up now, so it never left before
    obtain ⟨m, hm, _⟩ := (Queue.mem_abandoned h.queue).mp hn
    have hempty := h.stays n m hm
    rw [if_pos hn, hempty]
    constructor
    · rintro (⟨x, hx, heq⟩ | ⟨⟨hmem, _⟩, _⟩)
      · cases heq
        refine ⟨Or.inl (by simp), ?_⟩
        rintro (hf | ⟨_, _, _, _, _, hmem, _⟩)
        · exact not_forgotten hempty hf
        · cases hmem
      · cases hmem
    · rintro ⟨hmem | hmem, _⟩
      · refine Or.inl ⟨n, hn, ?_⟩
        simp only [Option.toList_some, List.mem_singleton, Exit.abandoned.injEq] at hmem
        rw [hmem]
      · cases hmem
  · have hother : ∀ {o : Option Exit}, (if n ∈ l.channel.outbound.gone
        (l.channel.outbound.tick c.resendTickThreshold c.resendThreshold).2 then some Exit.finished
        else none) = o → .abandoned t ∉ o.toList := by
      rintro o rfl
      split <;> simp
    rw [if_neg hn, or_iff_right (hother rfl), or_iff_right]
    · constructor
      · rintro ⟨⟨hmem, hf⟩, hlt⟩
        refine ⟨hmem, ?_⟩
        rintro (hf' | ⟨now', _, _, t', heq, hmem', hlate⟩)
        · exact hf hf'
        · cases heq
          rw [h.exits_eq hmem, List.mem_singleton] at hmem'
          cases hmem'
          have hlt : now - t < c.completedRetention.nanos := by simpa using hlt
          exact absurd hlate (Nat.not_le.mpr hlt)
      · rintro ⟨hmem, hf⟩
        rw [not_or] at hf
        refine ⟨⟨hmem, hf.1⟩, decide_eq_true (Nat.not_le.mp fun hlate => hf.2 ?_)⟩
        exact ⟨now, _, _, t, rfl, hmem, hlate⟩
    · rintro ⟨x, hx, heq⟩
      cases heq
      exact hn hx

/-- A fact with which no message leaves. -/
theorem exits_cons_of_stay {n : UInt64} {f : Fact} {log : List Fact} (hf : f.exit? n = none) :
    exits n (f :: log) = exits n log := by
  rw [exits_cons, hf]
  rfl

theorem Sound.registered (h : Sound c l) {dest : SocketAddr} {data : Bytes} {reliable : Bool}
    {n : UInt64} {q : Queue} (hr : l.channel.outbound.register dest data reliable = .ok (n, q)) :
    Sound c { l with
      channel := { l.channel with outbound := q }
      log := .registered n dest data reliable :: l.log } := by
  obtain ⟨hn, hnext, hsize, _⟩ := Queue.register_fields hr
  have hlt : ∀ {t : UInt64}, t.toNat < l.channel.outbound.nextNumber.toNat →
      t.toNat < q.nextNumber.toNat := fun ht => by
    rw [hnext, hn]
    exact Nat.lt_succ_of_lt ht
  have hexits : ∀ t, exits t (.registered n dest data reliable :: l.log) = exits t l.log :=
    fun t => exits_cons_of_stay rfl
  have hempty : exits n l.log = [] := by
    by_contra hne
    obtain ⟨dest, data, r, hreg⟩ := h.known n hne
    exact Nat.lt_irrefl _ (Nat.lt_of_lt_of_eq (h.numbered n dest data r hreg) (by rw [hn]))
  have hmessage := fun {t m} => Queue.message_of_register (t := t) (m := m) h.queue hr
  refine ⟨h.queue.register hr, hsize.trans h.size, ?_, ?_, fun o ho => hlt (h.picked o ho), ?_, ?_,
    ?_, ?_, ?_, ?_, ?_, h.remembers (by simp) (by simp [Fact.exit?])⟩
  · intro t dest' data' r' hm
    rcases List.mem_cons.mp hm with heq | hm
    · cases heq
      exact Nat.lt_of_lt_of_eq (Nat.lt_succ_self _) hnext.symm
    · exact hlt (h.numbered t dest' data' r' hm)
  · intro t m hm
    rcases hmessage hm with ⟨rfl, pieces, hsplit, rfl⟩ | ⟨_, hm⟩
    · exact ⟨data, List.mem_cons_self, h.size ▸ .of_register hr hsplit⟩
    · obtain ⟨data', hreg, hcut⟩ := h.origin t m hm
      exact ⟨data', List.mem_cons_of_mem _ hreg, hcut⟩
  · intro t m hm
    rcases hmessage hm with ⟨rfl, pieces, _, rfl⟩ | ⟨_, hm⟩
    · -- nothing in hand has the new number
      refine (List.countP_eq_zero.mpr fun o ho heq => ?_).symm
      have hlt := h.picked o ho
      rw [show o.header.sequence = t by simpa using heq, hn] at hlt
      exact Nat.lt_irrefl _ hlt
    · exact h.queued t m hm
  · intro t m hm i hi
    rcases hmessage hm with ⟨_, pieces, _, rfl⟩ | ⟨_, hm⟩
    · cases hi
    · exact (h.covered t m hm i hi).imp (·.cons _) id
  · intro t m hm i hi
    rcases hmessage hm with ⟨_, pieces, _, rfl⟩ | ⟨_, hm⟩
    · simp at hi
    · exact (h.acked t m hm i hi).cons _
  · intro t m hm
    rw [hexits]
    rcases hmessage hm with ⟨rfl, _⟩ | ⟨_, hm⟩
    · exact hempty
    · exact h.stays t m hm
  · intro t dest' data' r' hm hnone
    obtain ⟨_, pieces, _, hfind⟩ := Queue.find?_register h.queue hr t
    change q.find? t = none at hnone
    rw [hfind] at hnone
    by_cases ht : t = n
    · simp [ht] at hnone
    · rw [if_neg ht] at hnone
      obtain ⟨e, he⟩ := h.leaves t dest' data' r'
        ((List.mem_cons.mp hm).resolve_left fun heq => by cases heq; exact ht rfl) hnone
      exact ⟨e, (hexits t).trans he⟩
  · intro t hne
    obtain ⟨dest', data', r', hreg⟩ := h.known t (hexits t ▸ hne)
    exact ⟨dest', data', r', List.mem_cons_of_mem _ hreg⟩
  · exact fun t he => (h.honest t (hexits t ▸ he)).cons _

theorem Sound.send (h : Sound c l) (dest : SocketAddr) (data : Bytes) (reliable : Bool) :
    Sound c (step c l (.send dest data reliable)) := by
  cases hr : l.channel.outbound.register dest data reliable with
  | error =>
    simp only [step, Channel.send, hr, Except.map]
    exact h
  | ok result =>
    obtain ⟨n, q⟩ := result
    simp only [step, Channel.send, hr, Except.map]
    exact h.registered hr

theorem Sound.pick (h : Sound c l) : Sound c (step c l .pick) := by
  obtain ⟨hc, _, hn⟩ := Queue.next_fields l.channel.outbound
  show Sound c { l with
    channel := { l.channel with outbound := l.channel.outbound.next.2 }
    hand := l.hand ++ l.channel.outbound.next.1.toList }
  have hmessage : ∀ {n m'}, l.channel.outbound.next.2.find? n = some m' →
      ∃ m, l.channel.outbound.find? n = some m ∧
        Queue.Asked l.channel.outbound.maxFlight l.channel.outbound.next.1 m m' :=
    fun hm' => Queue.message_of_next h.queue hm'
  refine ⟨h.queue.next, hc.trans h.size, ?_, ?_, ?_, ?_, ?_, ?_, ?_, ?_, h.known, h.honest,
    h.remembered⟩
  · intro n dest data r hm
    show n.toNat < l.channel.outbound.next.2.nextNumber.toNat
    rw [hn]
    exact h.numbered n dest data r hm
  · intro n m' hm'
    obtain ⟨m, hm, ha⟩ := hmessage hm'
    obtain ⟨data, hreg, hcut⟩ := h.origin n m hm
    refine ⟨data, ?_, hcut.kin ha.kin⟩
    rw [ha.kin.dest, ha.kin.reliable]
    exact hreg
  · intro o ho
    show o.header.sequence.toNat < l.channel.outbound.next.2.nextNumber.toNat
    rw [hn]
    rcases List.mem_append.mp ho with ho | ho
    · exact h.picked o ho
    · obtain ⟨m, _, hm, _⟩ := Queue.emits_of_next h.queue (by simpa using ho)
      exact h.queue.lt_next hm
  · intro n m' hm'
    obtain ⟨m, hm, ha⟩ := hmessage hm'
    show m'.queued = (l.hand ++ _).countP _
    rw [List.countP_append, ha.counts, h.queued n m hm, Queue.Sound.sequence hm]
  · intro n m' hm' i hi
    obtain ⟨m, hm, ha⟩ := hmessage hm'
    have hold : i < m.firstUnsent → Written n i l.log ∨
        ∃ o ∈ l.hand ++ l.channel.outbound.next.1.toList,
          o.header.sequence = n ∧ o.header.index.toNat = i := fun hi =>
      (h.covered n m hm i hi).imp id fun ⟨o, ho, hrest⟩ => ⟨o, List.mem_append_left _ ho, hrest⟩
    rcases ha with ⟨rfl, _⟩ | he
    · exact hold hi
    · rcases he.covers hi with hi | ⟨rfl, hunsent, hout⟩
      · exact hold hi
      · obtain ⟨_, _, hcut⟩ := h.origin n m hm
        have hlt := (h.queue.message hm).firstUnsent_le
        refine Or.inr ⟨_, List.mem_append_right _ (Option.mem_toList.mpr
          (Option.filter_eq_some_iff.mp hout).1), Queue.Sound.sequence hm, ?_⟩
        exact hcut.toNat_index (by omega)
  · intro n m' hm' i hi
    obtain ⟨m, hm, ⟨rfl, _⟩ | he⟩ := hmessage hm'
    · exact h.acked n m' hm i hi
    · exact h.acked n m hm i (he.grows.2 ▸ hi)
  · intro n m' hm'
    obtain ⟨m, hm, _⟩ := hmessage hm'
    exact h.stays n m hm
  · intro n dest data r hm hnone
    rcases Queue.find?_next h.queue n with ⟨hnone', _⟩ | ⟨m, m', _, hm', _⟩
    · exact h.leaves n dest data r hm hnone'
    · cases hm'.symm.trans hnone

/-- A chunk in hand that the socket gets. -/
theorem Sound.written (h : Sound c l) {place : Nat} {o : Outgoing} (ho : l.hand[place]? = some o) :
    Sound c {
      channel := { l.channel with
        outbound := l.channel.outbound.markWritten o.header.sequence }
      hand := l.hand.eraseIdx place
      log := .written o :: l.log } := by
  have hperm := perm_eraseIdx ho
  have hexits : ∀ t, exits t (.written o :: l.log) = exits t l.log :=
    fun t => exits_cons_of_stay rfl
  have hbefore : ∀ {n dest data r}, .registered n dest data r ∈ Fact.written o :: l.log →
      .registered n dest data r ∈ l.log := fun hm =>
    (List.mem_cons.mp hm).resolve_left (by simp)
  refine ⟨h.queue.markWritten _, h.size, fun n dest data r hm => ?_, ?_, fun o' ho' => ?_, ?_, ?_,
    ?_, ?_, ?_, ?_, ?_, h.remembers (by simp) (by simp [Fact.exit?])⟩
  · exact h.numbered n dest data r (hbefore hm)
  · intro n m' hm'
    obtain ⟨m, hm, rfl⟩ := Queue.message_of_markWritten hm'
    obtain ⟨data, hreg, hcut⟩ := h.origin n m hm
    split
    · exact ⟨data, List.mem_cons_of_mem _ hreg, hcut.kin ⟨rfl, rfl, rfl, rfl⟩⟩
    · exact ⟨data, List.mem_cons_of_mem _ hreg, hcut⟩
  · exact h.picked o' (List.mem_of_mem_eraseIdx ho')
  · intro n m' hm'
    obtain ⟨m, hm, rfl⟩ := Queue.message_of_markWritten hm'
    have hcount := hperm.countP_eq (·.header.sequence == n)
    rw [← h.queued n m hm, List.countP_cons] at hcount
    by_cases hn : n = o.header.sequence
    · rw [if_pos hn]
      simp only [hn, beq_self_eq_true, ↓reduceIte] at hcount ⊢
      show m.queued - 1 = _
      omega
    · rw [if_neg hn]
      simpa [Ne.symm hn] using hcount
  · intro n m' hm' i hi
    obtain ⟨m, hm, rfl⟩ := Queue.message_of_markWritten hm'
    have hi' : i < m.firstUnsent := by
      split at hi <;> exact hi
    rcases h.covered n m hm i hi' with hw | ⟨o', ho', hn, hidx⟩
    · exact Or.inl (hw.cons _)
    · rcases List.mem_cons.mp (hperm.mem_iff.mp ho') with rfl | ho'
      · exact Or.inl ⟨o', List.mem_cons_self, hn, hidx⟩
      · exact Or.inr ⟨o', ho', hn, hidx⟩
  · intro n m' hm' i hi
    obtain ⟨m, hm, rfl⟩ := Queue.message_of_markWritten hm'
    have hi' : i ∈ m.acked := by
      split at hi <;> exact hi
    exact (h.acked n m hm i hi').cons _
  · intro n m' hm'
    obtain ⟨m, hm, _⟩ := Queue.message_of_markWritten hm'
    exact (hexits n).trans (h.stays n m hm)
  · intro n dest data r hm hnone
    obtain ⟨e, he⟩ := h.leaves n dest data r (hbefore hm) (Queue.find?_eq_none_of_markWritten hnone)
    exact ⟨e, (hexits n).trans he⟩
  · intro n hne
    obtain ⟨dest, data, r, hreg⟩ := h.known n (hexits n ▸ hne)
    exact ⟨dest, data, r, List.mem_cons_of_mem _ hreg⟩
  · exact fun n he => (h.honest n (hexits n ▸ he)).cons _

theorem Sound.write (h : Sound c l) (place : Nat) : Sound c (step c l (.write place)) := by
  cases ho : l.hand[place]? with
  | none =>
    simp only [step, ho]
    exact h
  | some o =>
    simp only [step, ho]
    exact h.written ho

theorem Sound.step (h : Sound c l) (e : Event) : Sound c (step c l e) := by
  cases e with
  | send dest data reliable => exact h.send dest data reliable
  | pick => exact h.pick
  | write place => exact h.write place
  | receive sender packet now => exact h.receive sender packet now
  | tick now => exact h.tick now
  | close dest => exact h.close dest

end Steps

theorem sound_run (c : Config) (family : Ip.Family) (events : List Event) :
    Sound c (run c family events) := by
  induction events using List.reverseRecOn with
  | nil => exact sound_init c family
  | append_singleton events e ih =>
    rw [run_append]
    exact ih.step e

end Courier.Datagram.Life
