import Courier.Proofs.Outbound.Drain
import Courier.Proofs.Outbound.Wire

/-!
What a resend tick sends again. Main statement: after any run, a tick schedules for each
reliable message that is due all its chunks that were sent and are not acknowledged, counts
them, and a drain right after it picks each of them once, in order and before the new chunks
of the message. The flight limit cuts nothing off, as no more than that many chunks of a
message are ever on their way.
-/

namespace Courier.Outbound

namespace Message

variable {W a b : Nat} {m m' : Message} {o : Option Outgoing} {gone : Bool} {t : Tick}
  {chunks : List Outgoing}

/-- The chunks to be sent again, less those that were acknowledged in the meantime. -/
def pending (m : Message) : List Nat := m.lost.filter (!m.acked.contains ·)

theorem pending_eq_dropWhile (m : Message) :
    m.pending = (m.lost.dropWhile (m.acked.contains ·)).filter (!m.acked.contains ·) := by
  have hnone : (m.lost.takeWhile (m.acked.contains ·)).filter (!m.acked.contains ·) = [] :=
    List.filter_eq_nil_iff.mpr fun i hi => by simp [List.mem_takeWhile_imp hi]
  have hsplit := congrArg (List.filter (!m.acked.contains ·))
    (List.takeWhile_append_dropWhile (p := (m.acked.contains ·)) (l := m.lost))
  rw [List.filter_append, hnone, List.nil_append] at hsplit
  exact hsplit.symm

/-- What a message gives until nothing else happens to it: the chunks to be sent again, and
then some new ones. -/
def Owes (m : Message) (chunks : List Outgoing) : Prop :=
  ∃ k, chunks = m.pending.map (m.chunk · true) ++
    (List.range' m.firstUnsent k).map (m.chunk · false)

theorem Emits.owes (h : Emits W m o m') (hrest : m'.Owes chunks) :
    m.Owes (o.toList ++ chunks) := by
  obtain ⟨k, rfl⟩ := hrest
  have hchunk := h.kin.chunk_eq
  have hpending := m.pending_eq_dropWhile
  cases h with
  | again i rest lost =>
    rw [lost, List.filter_cons_of_pos (by simpa using contains_eq_false.mpr (head_not_acked lost))]
      at hpending
    exact ⟨k, by rw [hpending]; rfl⟩
  | fresh lost =>
    rw [lost] at hpending
    exact ⟨k + 1, by rw [hpending, List.range'_succ]; rfl⟩
  | idle lost =>
    rw [lost] at hpending
    exact ⟨k, by rw [hpending]; rfl⟩

theorem Emits.owes_nil (h : Emits W m none m') : m.Owes [] := by
  have hpending := m.pending_eq_dropWhile
  cases h with
  | idle lost =>
    rw [lost] at hpending
    exact ⟨0, by rw [hpending]; rfl⟩

theorem owes_markWritten : m.markWritten.Owes chunks ↔ m.Owes chunks := Iff.rfl

/-- No more chunks are lost than may be in flight. -/
theorem Sound.take_unacked (h : m.Sound W) (hr : m.reliable = true) :
    m.unacked.take W = m.unacked :=
  List.take_of_length_le (h.outstanding_eq hr ▸ h.outstanding_le hr)

theorem pending_of_lost (h : m.lost = m.unacked) : m.pending = m.lost := by
  refine List.filter_eq_self.mpr fun i hi => ?_
  rw [h] at hi
  simpa using contains_eq_false.mpr (mem_unacked.mp hi).2

end Message

namespace Queue

variable {written : Bool} {q q' : Queue} {n : UInt64} {m : Message} {chunks : List Outgoing}
  {a b : Nat}

/-- The chunks of a message that are to be sent again. -/
def scheduled (q : Queue) (n : UInt64) : List Nat := (q.find? n).elim [] (·.lost)

/-- A reliable message that a tick does not give up, and that has waited for so many ticks. -/
def Due (outcome : Tick) (a : Nat) (m : Message) : Bool :=
  m.reliable && !outcome.abandoned.contains m.sequence && decide (a ≤ m.stalledTicks + 1)

theorem due_iff {outcome : Tick} : Due outcome a m = true ↔
    m.reliable = true ∧ m.sequence ∉ outcome.abandoned ∧ a ≤ m.stalledTicks + 1 := by
  simp [Due, and_assoc]

/-! ## The tick -/

theorem Sound.due_iff (h : q.Sound) (hm : q.find? n = some m) :
    Due (q.tick a b).1 a m = true ↔
      m.reliable = true ∧ m.stalledTicks + 1 < b ∧ a ≤ m.stalledTicks + 1 := by
  rw [Queue.due_iff, mem_abandoned h, Sound.sequence hm]
  constructor
  · rintro ⟨hr, hnot, ha⟩
    exact ⟨hr, Nat.lt_of_not_le fun hb => hnot ⟨m, hm, hr, hb⟩, ha⟩
  · rintro ⟨hr, hb, ha⟩
    refine ⟨hr, ?_, ha⟩
    rintro ⟨m', hm', _, hb'⟩
    cases hm.symm.trans hm'
    omega

/-- A message that is due is told to send all its unacknowledged chunks again. -/
theorem Sound.find?_tick_of_due (h : q.Sound) (hm : q.find? n = some m)
    (hdue : Due (q.tick a b).1 a m = true) :
    (q.tick a b).2.find? n =
      some { m with stalledTicks := m.stalledTicks + 1, lost := m.unacked } := by
  obtain ⟨hr, hb, ha⟩ := (h.due_iff hm).mp hdue
  have ht := Message.ticks_tickMessage q.maxFlight a b m
  rw [find?_tick h, hm, Option.bind_some]
  generalize tickMessage q.maxFlight a b m = result at ht ⊢
  obtain ⟨gone, m', t⟩ := result
  dsimp only at ht ⊢
  cases ht with
  | finished kind | unfinished kind => cases hr.symm.trans kind
  | abandoned _ late => omega
  | waits _ _ notDue => omega
  | again => simp [(h.message hm).take_unacked hr]

/-- A tick counts what it schedules. -/
theorem Sound.resent_eq (h : q.Sound) (a b : Nat) :
    (q.tick a b).1.resent = ((q.ring.filter (Due (q.tick a b).1 a)).map (·.outstanding)).sum := by
  rw [← sum_map_ite, tick_fst]
  show (q.ring.map _).sum = _
  rw [← tick_fst]
  refine congrArg List.sum (List.map_congr_left fun m hm => ?_)
  have hdue := h.due_iff (a := a) (b := b) (h.find?_iff.mpr ⟨hm, rfl⟩)
  have hs := h.messages m hm
  have ht := Message.ticks_tickMessage q.maxFlight a b m
  generalize tickMessage q.maxFlight a b m = result at ht ⊢
  obtain ⟨gone, m', t⟩ := result
  dsimp only at ht ⊢
  cases ht with
  | finished kind | unfinished kind => rw [if_neg (by simp [hdue, kind])]
  | abandoned _ late => rw [if_neg (by rw [hdue]; omega)]
  | waits _ _ notDue => rw [if_neg (by rw [hdue]; omega)]
  | again kind early due =>
    rw [if_pos (hdue.mpr ⟨kind, early, due⟩), hs.take_unacked kind, hs.outstanding_eq kind]

/-! ## The drain -/

theorem find?_picked (hm : q.next.2.find? n = some m) (written : Bool) (o : Outgoing) :
    (q.picked written o).find? n = some m ∨ (q.picked written o).find? n = some m.markWritten := by
  cases written with
  | false => exact Or.inl hm
  | true =>
    rw [picked, if_pos rfl, find?_markWritten]
    by_cases hn : n = o.header.sequence
    · exact Or.inr (by rw [if_pos hn, ← hn, hm, Option.map_some])
    · exact Or.inl (by rw [if_neg hn, hm])

/-- A drain picks what each message owes, in its order. -/
theorem Drains.owes (h : Drains written q chunks q') (hs : q.Sound) (hm : q.find? n = some m) :
    m.Owes (chunks.filter (·.header.sequence == n)) := by
  induction h generalizing m with
  | done empty =>
    have hnone := emit_none_of_next empty m (hs.find?_iff.mp hm).1
    exact (Message.emits_of_fst hnone).owes_nil
  | @more q q' o chunks found rest ih =>
    rcases find?_next hs n with ⟨hnone, _⟩ | ⟨m₀, m₁, hm₀, hm₁, hasked⟩
    · cases hnone.symm.trans hm
    cases hm₀.symm.trans hm
    have hrest : m₁.Owes (chunks.filter (·.header.sequence == n)) := by
      rcases find?_picked hm₁ written o with hpicked | hpicked
      · exact ih (hs.picked written o) hpicked
      · exact Message.owes_markWritten.mp (ih (hs.picked written o) hpicked)
    have hcons : (o :: chunks).filter (·.header.sequence == n) =
        ((some o).filter (·.header.sequence == m.sequence)).toList ++
          chunks.filter (·.header.sequence == n) := by
      rw [Sound.sequence hm, List.filter_cons, Option.filter_some]
      split <;> rfl
    rw [hcons]
    rw [found] at hasked
    rcases hasked with ⟨rfl, hother⟩ | hemits
    · rwa [hother]
    · exact hemits.owes hrest

end Queue

namespace History

/-- What a tick that waits for `a` ticks comes to after a run. -/
structure Resends (h : History) (a : Nat) (outcome : Tick) (q' : Queue) : Prop where
  /-- a message that is due stays, and all its chunks are lost that may be -/
  scheduled : ∀ n m, h.queue.find? n = some m → Queue.Due outcome a m = true →
    q'.contains n = true ∧ (q'.scheduled n).Pairwise (· < ·) ∧
      ∀ i, i ∈ q'.scheduled n ↔ i ∈ sent n h.log ∧ ¬ Acknowledged (m.header i) h.log
  counted : outcome.resent =
    ((h.queue.ring.filter (Queue.Due outcome a)).map (·.outstanding)).sum
  /-- these are picked before its new ones, however many are in flight -/
  drained : ∀ written, ∃ chunks e, Queue.Drains written q' chunks e ∧
    ∀ n m, h.queue.find? n = some m → Queue.Due outcome a m = true →
      ∃ k, chunks.filter (·.header.sequence == n) =
        (q'.scheduled n).map (m.chunk · true) ++ (List.range' m.firstUnsent k).map (m.chunk · false)

/-- Whatever was done with the queue, a tick forgets no chunk that is lost, and none of those
that it schedules is picked twice. -/
theorem resends_run (cs W : Nat) (events : List Event) (a b : Nat) :
    Resends (run cs W events) a ((run cs W events).queue.tick a b).1
      ((run cs W events).queue.tick a b).2 := by
  have hs := sound_run cs W events
  have hheeds := heeds_run cs W events
  generalize run cs W events = h at hs hheeds ⊢
  have hafter : ∀ n m, h.queue.find? n = some m →
      Queue.Due (h.queue.tick a b).1 a m = true →
      (h.queue.tick a b).2.scheduled n = m.unacked := fun n m hm hdue => by
    rw [Queue.scheduled, hs.queue.find?_tick_of_due hm hdue]
    rfl
  refine ⟨fun n m hm hdue => ?_, hs.queue.resent_eq a b, fun written => ?_⟩
  · have htold := hs.told n m hm
    have hle := (hs.queue.message hm).firstUnsent_le
    obtain ⟨hr, _⟩ := Queue.due_iff.mp hdue
    rw [hafter n m hm hdue]
    refine ⟨?_, List.pairwise_lt_range.filter _, fun i => ?_⟩
    · rw [Queue.contains, hs.queue.find?_tick_of_due hm hdue, Option.isSome_some]
    · rw [Message.mem_unacked, htold.mem_sent]
      refine and_congr_right fun hi => not_congr ?_
      exact hheeds n m hm hr i (Nat.lt_of_lt_of_le hi hle)
  · have hq' := hs.queue.tick a b
    have hdrains := hq'.drains (hs.placed.keeps_tick hs.queue a b).1 written
    refine ⟨_, _, hdrains, fun n m hm hdue => ?_⟩
    obtain ⟨k, hk⟩ := hdrains.owes hq' (hs.queue.find?_tick_of_due hm hdue)
    rw [Message.pending_of_lost rfl] at hk
    rw [hafter n m hm hdue]
    exact ⟨k, hk⟩

/-- Three chunks in flight, the second of which was acknowledged. -/
example :
    let peer : SocketAddr := { ip := .v4 127 0 0 1, port := 7001 }
    let ack : Chunk.Header := { kind := .ack, sequence := 0, total := 3, index := 1 }
    let h := run 1 4 [.register peer [1, 2, 3] true, .next, .next, .next, .acknowledge ack]
    (h.queue.tick 1 3).2.scheduled 0 = [0, 2] := by decide

end History

end Courier.Outbound
