import Courier.Proofs.Outbound.Run
import Mathlib.Data.List.Perm.Subperm

/-!
How messages leave the queue. A reliable one leaves with the acknowledgement of its last
chunk, or with the tick that gives it up; a best-effort one with the first tick that finds
it sent and written; and each with the dropping of its peer. There is no other way, each
message takes one of them, and it never comes back.
-/

namespace Courier.Outbound

/-- How a message leaves the queue. -/
inductive Exit where
  | acknowledged
  | abandoned
  | finished
  | cancelled
  deriving DecidableEq

namespace History

/-- With this event the message leaves the queue, after what the log tells. -/
inductive Leaves (cs : Nat) (n : UInt64) (log : List Fact) : Event → Exit → Prop
  /-- one of its chunks that was sent was not yet acknowledged, and now it is -/
  | acknowledged (dest : SocketAddr) (data : Bytes) (total : Nat) (ack : Chunk.Header)
      (reliable : .registered n dest data true ∈ log)
      (count : Chunk.count? data.length cs = some total)
      (mine : ack.sequence = n) (sameTotal : ack.total.toNat = total)
      (sent : ack.index.toNat ∈ sent n log) (missing : ack.index.toNat ∉ acked n log)
      (others : ∀ i < total, i ≠ ack.index.toNat → i ∈ acked n log) :
      Leaves cs n log (.acknowledge ack) .acknowledged
  /-- with this tick it has waited long enough -/
  | abandoned (dest : SocketAddr) (data : Bytes) (tickThreshold threshold : Nat)
      (reliable : .registered n dest data true ∈ log)
      (late : waited n log + 1 = max 1 threshold) :
      Leaves cs n log (.tick tickThreshold threshold) .abandoned
  | finished (dest : SocketAddr) (data : Bytes) (total tickThreshold threshold : Nat)
      (bestEffort : .registered n dest data false ∈ log)
      (count : Chunk.count? data.length cs = some total)
      (sent : ∀ i < total, i ∈ sent n log) (written : unwritten n log = 0) :
      Leaves cs n log (.tick tickThreshold threshold) .finished
  | cancelled (dest : SocketAddr) (data : Bytes) (reliable : Bool)
      (registered : .registered n dest data reliable ∈ log) :
      Leaves cs n log (.dropTo dest) .cancelled

/-! ## The registration of a message -/

theorem given_cons (f : Fact) (log : List Fact) :
    given (f :: log) = f.given?.toList ++ given log := by
  unfold given
  cases hf : f.given? <;> simp [hf]

theorem mem_given {n : UInt64} {log : List Fact} :
    n ∈ given log ↔ ∃ dest data reliable, .registered n dest data reliable ∈ log := by
  constructor
  · intro h
    obtain ⟨f, hf, hn⟩ := List.mem_filterMap.mp h
    cases f with
    | registered s dest data reliable =>
      cases hn
      exact ⟨dest, data, reliable, hf⟩
    | _ => cases hn
  · rintro ⟨dest, data, reliable, hf⟩
    exact List.mem_filterMap.mpr ⟨_, hf, rfl⟩

/-- A number is given once. -/
theorem registered_inj {n : UInt64} {d d' : SocketAddr} {data data' : Bytes} {r r' : Bool}
    {log : List Fact} (hd : (given log).Nodup) (h : .registered n d data r ∈ log)
    (h' : .registered n d' data' r' ∈ log) : d = d' ∧ data = data' ∧ r = r' := by
  induction log with
  | nil => cases h
  | cons f log ih =>
    rw [given_cons, List.nodup_append] at hd
    have hnew : ∀ {d data r}, f = .registered n d data r →
        ∀ d' data' r', .registered n d' data' r' ∉ log := by
      rintro d data r rfl d' data' r' hm
      exact hd.2.2 n (by simp [Fact.given?]) n (mem_given.mpr ⟨_, _, _, hm⟩) rfl
    rcases List.mem_cons.mp h with heq | hm <;> rcases List.mem_cons.mp h' with heq' | hm'
    · cases heq.trans heq'.symm
      exact ⟨rfl, rfl, rfl⟩
    · exact absurd hm' (hnew heq.symm _ _ _)
    · exact absurd hm (hnew heq'.symm _ _ _)
    · exact ih hd.2.1 hm hm'

section Sound

variable {cs W : Nat} {h : History} {n : UInt64} {m : Message}

theorem Sound.nodup_given (hs : Sound cs W h) : (given h.log).Nodup := by
  refine List.Nodup.of_map (·.toNat) ?_
  rw [hs.given_eq]
  exact List.nodup_reverse.mpr List.nodup_range

theorem Sound.length_given (hs : Sound cs W h) :
    (given h.log).length = h.queue.nextNumber.toNat := by
  have hlength := congrArg List.length hs.given_eq
  rwa [List.length_map, List.length_reverse, List.length_range] at hlength

theorem Sound.mem_given_iff (hs : Sound cs W h) :
    n ∈ given h.log ↔ n.toNat < h.queue.nextNumber.toNat := by
  have hmem : n.toNat ∈ (given h.log).map (·.toNat) ↔ n.toNat < h.queue.nextNumber.toNat := by
    rw [hs.given_eq, List.mem_reverse, List.mem_range]
  rw [← hmem, List.mem_map]
  constructor
  · exact fun hn => ⟨n, hn, rfl⟩
  · rintro ⟨n', hn', heq⟩
    exact UInt64.toNat_inj.mp heq ▸ hn'

/-- What the log tells about the registration of a message in the queue. -/
theorem Sound.registered_eq (hs : Sound cs W h) (hm : h.queue.find? n = some m)
    {dest : SocketAddr} {data : Bytes} {r : Bool} (hreg : .registered n dest data r ∈ h.log) :
    m.dest = dest ∧ m.reliable = r ∧ Chunk.count? data.length cs = some m.total := by
  obtain ⟨data', hreg', hcut⟩ := (hs.told n m hm).origin
  obtain ⟨hd, rfl, hr⟩ := registered_inj hs.nodup_given hreg' hreg
  exact ⟨hd, hr, hcut.count?_eq⟩

theorem Told.mem_sent {log : List Fact} (ht : Told cs n m log) {i : Nat} :
    i ∈ sent n log ↔ i < m.firstUnsent := by
  rw [ht.sent_eq, List.mem_reverse, List.mem_range]

end Sound

end History

/-- The acknowledgement of a chunk is the last one missing just if all others are there. -/
theorem Message.Sound.allAcked_iff {W : Nat} {m m' : Message} (h : m.Sound W) {total : UInt16}
    {i : Nat} (ha : m.acknowledge? total i = some m') :
    m'.allAcked = true ↔ ∀ j < m.total, j ≠ i → j ∈ m.acked := by
  constructor
  · intro hall j hj hne
    exact (h.all_acked ha hall j hj).resolve_left hne
  · intro hothers
    obtain ⟨⟨_, _, hi, hn⟩, rfl⟩ := acknowledge?_eq_some_iff.mp ha
    have hmem : i ∈ m.unacked := mem_unacked.mpr ⟨hi, hn⟩
    have hle := h.firstUnsent_le
    have hsize := h.size_acked
    -- every chunk was sent, and no other one is unacknowledged
    have hsent : m.firstUnsent = m.total := by
      by_contra hne
      exact h.firstUnsent_not_mem (hothers _ (by omega) (by omega))
    have hsub : m.unacked ⊆ [i] := by
      intro j hj
      obtain ⟨hlt, hnot⟩ := mem_unacked.mp hj
      by_contra hne
      exact hnot (hothers j (by omega) (by simpa using hne))
    have hone := (List.subperm_of_subset (nodup_unacked m) hsub).length_le
    have hpos := List.length_pos_of_mem hmem
    rw [List.length_singleton] at hone
    simp only [allAcked, Std.TreeSet.size_insert, contains_eq_false.mpr hn, beq_iff_eq]
    show m.acked.size + 1 = m.total
    omega

namespace History

/-! ## Event by event -/

section Leaves

variable {cs W : Nat} {h : History} {n : UInt64} {m : Message}

theorem Sound.find?_acknowledge_eq_none_iff (hs : Sound cs W h) (hm : h.queue.find? n = some m)
    (ack : Chunk.Header) : (h.queue.acknowledge ack).2.find? n = none ↔
      ∃ x, Leaves cs n h.log (.acknowledge ack) x := by
  have ht := hs.told n m hm
  have hsound := hs.queue.message hm
  have hack := Queue.acknowledges_acknowledge h.queue ack
  generalize h.queue.acknowledge ack = result at hack ⊢
  obtain ⟨progress, q⟩ := result
  dsimp only at hack ⊢
  constructor
  · intro hnone
    cases hack with
    | ignored => cases hnone.symm.trans hm
    | progress m₁ m' found taken =>
      rw [Queue.find?_progress found taken] at hnone
      by_cases hn : n = ack.sequence
      · simp [hn] at hnone
      · rw [if_neg hn, hm] at hnone
        cases hnone
    | settled m₁ m' found taken all =>
      by_cases hn : n = ack.sequence
      · cases (hn ▸ found).symm.trans hm
        obtain ⟨⟨hr, htotal, hi, hnot⟩, _⟩ := Message.acknowledge?_eq_some_iff.mp taken
        obtain ⟨data, hreg, hcut⟩ := ht.origin
        rw [hr] at hreg
        refine ⟨_, .acknowledged _ data _ ack hreg hcut.count?_eq hn.symm htotal
          (ht.mem_sent.mpr hi) (fun hc => hnot ((ht.mem_acked _).mpr hc)) fun j hj hne => ?_⟩
        exact (ht.mem_acked j).mp ((hsound.allAcked_iff taken).mp all j hj hne)
      · rw [Queue.find?_settled hs.queue found taken, if_neg hn, hm] at hnone
        cases hnone
  · rintro ⟨_, hl⟩
    cases hl with
    | acknowledged dest data total _ reliable count mine sameTotal sent missing others =>
      obtain ⟨_, hr, hcount⟩ := hs.registered_eq hm reliable
      obtain rfl : m.total = total := Option.some.inj (hcount.symm.trans count)
      have htaken := Message.acknowledge?_eq_some_iff.mpr
        ⟨⟨hr, sameTotal, ht.mem_sent.mp sent, fun hc => missing ((ht.mem_acked _).mp hc)⟩, rfl⟩
      have hall := (hsound.allAcked_iff htaken).mpr fun j hj hne =>
        (ht.mem_acked j).mpr (others j hj hne)
      subst mine
      cases hack with
      | ignored hnot => cases (hnot m hm).symm.trans htaken
      | progress m₁ m' found taken open_ =>
        cases found.symm.trans hm
        cases taken.symm.trans htaken
        cases open_.symm.trans hall
      | settled m₁ m' found taken =>
        rw [Queue.find?_settled hs.queue found taken, if_pos rfl]

theorem Sound.finished_iff (hs : Sound cs W h) (hm : h.queue.find? n = some m) (a b : Nat) :
    Leaves cs n h.log (.tick a b) .finished ↔
      m.reliable = false ∧ m.firstUnsent = m.total ∧ m.queued = 0 := by
  have ht := hs.told n m hm
  constructor
  · intro hl
    cases hl with
    | finished dest data total _ _ bestEffort count sent written =>
      obtain ⟨_, hr, hcount⟩ := hs.registered_eq hm bestEffort
      obtain rfl : m.total = total := Option.some.inj (hcount.symm.trans count)
      refine ⟨hr, ?_, ht.queued_eq.trans written⟩
      have hle := (hs.queue.message hm).firstUnsent_le
      by_contra hne
      exact Nat.lt_irrefl _ (ht.mem_sent.mp (sent m.firstUnsent (by omega)))
  · rintro ⟨hr, hsent, hidle⟩
    obtain ⟨data, hreg, hcut⟩ := ht.origin
    refine .finished m.dest data m.total a b (hr ▸ hreg) hcut.count?_eq ?_ ?_
    · exact fun i hi => ht.mem_sent.mpr (hsent ▸ hi)
    · exact ht.queued_eq ▸ hidle

theorem Sound.abandoned_iff (hs : Sound cs W h) (hm : h.queue.find? n = some m) (a b : Nat) :
    Leaves cs n h.log (.tick a b) .abandoned ↔
      m.reliable = true ∧ m.stalledTicks + 1 = max 1 b := by
  have ht := hs.told n m hm
  constructor
  · intro hl
    cases hl with
    | abandoned dest data _ _ reliable late =>
      obtain ⟨_, hr, _⟩ := hs.registered_eq hm reliable
      exact ⟨hr, ht.stalledTicks_eq hr ▸ late⟩
  · rintro ⟨hr, hlate⟩
    obtain ⟨data, hreg, _⟩ := ht.origin
    exact .abandoned m.dest data a b (hr ▸ hreg) (ht.stalledTicks_eq hr ▸ hlate)

theorem Sound.find?_tick_eq_none_iff (hs : Sound cs W h) (hm : h.queue.find? n = some m)
    (a b : Nat) (hwait : m.reliable = true → m.stalledTicks < max 1 b) :
    (h.queue.tick a b).2.find? n = none ↔ ∃ x, Leaves cs n h.log (.tick a b) x := by
  have hfinished := hs.finished_iff hm a b
  have habandoned := hs.abandoned_iff hm a b
  have htwo : (∃ x, Leaves cs n h.log (.tick a b) x) ↔
      Leaves cs n h.log (.tick a b) .finished ∨ Leaves cs n h.log (.tick a b) .abandoned := by
    constructor
    · rintro ⟨x, hl⟩
      cases x with
      | finished => exact Or.inl hl
      | abandoned => exact Or.inr hl
      | acknowledged | cancelled => cases hl
    · rintro (hl | hl) <;> exact ⟨_, hl⟩
  rw [htwo, hfinished, habandoned, Queue.find?_tick hs.queue, hm, Option.bind_some]
  have hticks := Message.ticks_tickMessage h.queue.maxFlight a b m
  generalize Queue.tickMessage h.queue.maxFlight a b m = result at hticks ⊢
  obtain ⟨gone, m', t⟩ := result
  dsimp only at hticks ⊢
  cases hticks with
  | finished kind sent idle => exact iff_of_true rfl (Or.inl ⟨kind, sent, idle⟩)
  | abandoned kind late =>
    have hearly := hwait kind
    exact iff_of_true rfl (Or.inr ⟨kind, by omega⟩)
  | unfinished kind busy =>
    refine iff_of_false (by simp) ?_
    rintro (⟨_, hsent, hidle⟩ | ⟨hr, _⟩)
    · exact busy.elim (· hsent) (· hidle)
    · cases kind.symm.trans hr
  | again kind early | waits kind early =>
    refine iff_of_false (by simp) ?_
    rintro (⟨hr, _⟩ | ⟨_, hlate⟩)
    · cases kind.symm.trans hr
    · omega

theorem Sound.find?_dropTo_eq_none_iff (hs : Sound cs W h) (hm : h.queue.find? n = some m)
    (dest : SocketAddr) :
    (h.queue.dropTo dest).2.find? n = none ↔ ∃ x, Leaves cs n h.log (.dropTo dest) x := by
  rw [Queue.find?_dropTo hs.queue, hm, Option.filter_some]
  constructor
  · intro hnone
    obtain ⟨data, hreg, _⟩ := (hs.told n m hm).origin
    have hdest : m.dest = dest := by
      by_contra hne
      rw [if_pos (by simpa using hne)] at hnone
      cases hnone
    exact ⟨_, .cancelled dest data m.reliable (hdest ▸ hreg)⟩
  · rintro ⟨_, hl⟩
    cases hl with
    | cancelled _ data reliable registered =>
      rw [(hs.registered_eq hm registered).1, if_neg (by simp)]

/-- A message leaves the queue with an event just if the event takes it out in one of the
four ways. -/
theorem Sound.leaves_iff (hs : Sound cs W h) (hm : h.queue.find? n = some m) (e : Event)
    (hwait : ∀ a b, e = .tick a b → m.reliable = true → m.stalledTicks < max 1 b) :
    (h.step e).queue.find? n = none ↔ ∃ x, Leaves cs n h.log e x := by
  cases e with
  | acknowledge ack => exact hs.find?_acknowledge_eq_none_iff hm ack
  | tick a b => exact hs.find?_tick_eq_none_iff hm a b (hwait a b rfl)
  | dropTo dest => exact hs.find?_dropTo_eq_none_iff hm dest
  | register dest data reliable =>
    refine iff_of_false ?_ (by rintro ⟨_, ⟨⟩⟩)
    cases hr : h.queue.register dest data reliable with
    | error _ => simp [step_of_error hr, hm]
    | ok result =>
      obtain ⟨_, pieces, _, hfind⟩ := Queue.find?_register hs.queue hr n
      rw [step_of_ok hr, hfind, hm]
      split <;> simp
  | next =>
    refine iff_of_false ?_ (by rintro ⟨_, ⟨⟩⟩)
    rcases Queue.find?_next hs.queue n with ⟨hnone, _⟩ | ⟨_, m', _, hm', _⟩
    · cases hnone.symm.trans hm
    · exact fun hnone => Option.some_ne_none m' (hm'.symm.trans hnone)
  | markWritten s =>
    refine iff_of_false ?_ (by rintro ⟨_, ⟨⟩⟩)
    exact fun hnone => Option.some_ne_none m
      (hm.symm.trans (Queue.find?_eq_none_of_markWritten hnone))

/-- No message can leave in two ways at once. -/
theorem Sound.leaves_unique (hs : Sound cs W h) {e : Event} {x y : Exit}
    (hx : Leaves cs n h.log e x) (hy : Leaves cs n h.log e y) : x = y := by
  have hkind : ∀ {d d' data data'}, .registered n d data true ∈ h.log →
      .registered n d' data' false ∉ h.log := fun hreg hreg' => by
    cases (registered_inj hs.nodup_given hreg hreg').2.2
  cases hx with
  | acknowledged => cases hy; rfl
  | cancelled => cases hy; rfl
  | abandoned _ _ _ _ reliable =>
    cases hy with
    | abandoned => rfl
    | finished _ _ _ _ _ bestEffort => exact absurd bestEffort (hkind reliable)
  | finished _ _ _ _ _ bestEffort =>
    cases hy with
    | finished => rfl
    | abandoned _ _ _ _ reliable => exact absurd bestEffort (hkind reliable)

end Leaves

end History

end Courier.Outbound
