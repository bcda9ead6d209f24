import Courier.Proofs.Lists
import Courier.Proofs.Outbound.Run
import Courier.Proofs.Outbound.Store
import Mathlib.Data.List.Perm.Subperm

/-!
The representation invariant of the table. Main statement: whatever is done with it, the
table, the ring, the cursor, the sets and the counts agree with each other, and the table
is the queue of the ring of messages: it holds the same and shows the same to an onlooker.
-/

namespace Courier.Outbound

/-! ## The invariant -/

structure Slot.Coherent (W : Nat) (s : Slot) : Prop where
  sent_iff : ∀ i, i ∈ s.sent ↔ i < s.firstUnsent
  firstUnsent_le : s.firstUnsent ≤ s.total
  acked_subset : ∀ i ∈ s.acked, i ∈ s.sent
  missing : ∃ i < s.total, i ∉ s.acked
  outstanding_eq : s.reliable = true → s.outstanding + s.acked.size = s.sent.size
  outstanding_le : s.reliable = true → s.outstanding ≤ W
  /-- the subtraction for an acknowledgement is exact -/
  outstanding_pos : ∀ total i (s' : Slot), s.acknowledge? total i = some s' →
    s'.outstanding + 1 = s.outstanding
  acked_empty : s.reliable = false → ∀ i, i ∉ s.acked
  lost_empty : s.reliable = false → s.lost = []
  queued_le : s.reliable = false → s.queued ≤ W
  lost_ascending : s.lost.Pairwise (· < ·)
  lost_le : s.lost.length ≤ W
  lost_subset : ∀ i ∈ s.lost, i ∈ s.sent

structure Store.Coherent (s : Store) : Prop where
  /-- the ring lists the numbers of the messages in the table -/
  mem_ring : ∀ n, n ∈ s.ring ↔ n ∈ s.messages
  nodup : s.ring.Nodup
  below : ∀ n ∈ s.ring, n < s.nextNumber
  cursor : s.cursor = 0 ∨ s.cursor < s.ring.length
  slot : ∀ (n : UInt64) (slot : Slot), s.messages[n]? = some slot →
    slot.sequence = n ∧ slot.Coherent s.maxFlight

theorem size_eq_of_mem_iff {t : Std.TreeSet Nat} {n : Nat} (h : ∀ i, i ∈ t ↔ i < n) :
    t.size = n := by
  rw [size_eq_length List.nodup_range fun i => by rw [h, List.mem_range], List.length_range]

/-- A set that lacks none of the numbers below `n` has so many. -/
theorem exists_not_mem {t : Std.TreeSet Nat} {n : Nat} (h : t.size < n) : ∃ i < n, i ∉ t := by
  by_contra hall
  push Not at hall
  have hsub : List.Subperm (List.range n) t.toList :=
    List.subperm_of_subset List.nodup_range fun i hi =>
      Std.TreeSet.mem_toList.mpr (hall i (List.mem_range.mp hi))
  have hle := hsub.length_le
  rw [List.length_range, Std.TreeSet.length_toList] at hle
  omega

theorem Slot.Exact.coherent {W : Nat} {s : Slot} (h : s.Exact) (hs : s.toMessage.Sound W) :
    s.Coherent W where
  sent_iff := h
  firstUnsent_le := hs.firstUnsent_le
  acked_subset i hi := (h i).mpr (hs.acked_lt i hi)
  missing := exists_not_mem hs.not_allAcked
  outstanding_eq hr := by
    rw [size_eq_of_mem_iff h, hs.outstanding_eq hr, Nat.add_comm]
    exact hs.size_acked
  outstanding_le := hs.outstanding_le
  outstanding_pos total i s' ha := by
    have heq := h.acknowledge?_eq total i
    rw [ha, Option.map_some] at heq
    obtain ⟨⟨hr, _, hi, hn⟩, hs'⟩ := Message.acknowledge?_eq_some_iff.mp heq.symm
    have hpos := List.length_pos_of_mem (Message.mem_unacked.mpr ⟨hi, hn⟩)
    rw [hs', hs.outstanding_eq hr]
    exact Nat.sub_add_cancel hpos
  acked_empty := hs.acked_empty
  lost_empty := hs.lost_empty
  queued_le := hs.queued_le
  lost_ascending := List.pairwise_lt_range.sublist hs.lost_sublist
  lost_le := hs.lost_le
  lost_subset i hi := (h i).mpr (hs.lost_lt hi)

theorem Store.Mirrors.coherent {s : Store} {q : Queue} (h : Mirrors s q) (hq : q.Sound)
    (hp : q.Placed) : s.Coherent where
  mem_ring n := by
    have hring : n ∈ s.ring ↔ (q.find? n).isSome = true := by
      rw [h.ring, Queue.find?, List.find?_isSome, List.mem_map]
      simp only [beq_iff_eq]
    rw [hring, ← h.messages, Option.isSome_map, Std.TreeMap.mem_iff_isSome_getElem?]
  nodup := h.ring ▸ hq.distinct
  below n hn := by
    rw [h.ring] at hn
    obtain ⟨m, hm, rfl⟩ := List.mem_map.mp hn
    rw [h.nextNumber, UInt64.lt_iff_toNat_lt]
    exact hq.below m hm
  cursor := by
    rw [h.cursor, h.ring, List.length_map]
    exact hp
  slot n slot hslot := by
    have hm := h.find? hslot
    rw [h.maxFlight]
    exact ⟨Queue.Sound.sequence hm, (h.exact n slot hslot).coherent (hq.message hm)⟩

/-! ## Runs -/

/-- The table with what an onlooker has seen of it, newest first. -/
structure Ledger where
  store : Store
  log : List History.Fact := []

namespace Ledger

def step (l : Ledger) : History.Event → Ledger
  | .register dest data reliable =>
    match l.store.register dest data reliable with
    | .error _ => l
    | .ok (n, store) => ⟨store, .registered n dest data reliable :: l.log⟩
  | .next =>
    let (chunk, store) := l.store.next
    ⟨store, chunk.toList.map .emitted ++ l.log⟩
  | .markWritten n => ⟨l.store.markWritten n, .written n :: l.log⟩
  | .acknowledge ack =>
    let (progress, store) := l.store.acknowledge ack
    ⟨store, .acknowledged ack progress :: l.log⟩
  | .tick tickThreshold threshold =>
    let (outcome, store) := l.store.tick tickThreshold threshold
    ⟨store, .ticked outcome :: l.log⟩
  | .dropTo dest => ⟨(l.store.dropTo dest).2, .dropped dest :: l.log⟩

def run (chunkSize maxFlight : Nat) (events : List History.Event) : Ledger :=
  events.foldl step { store := { chunkSize, maxFlight } }

/-- The same queue with the same log. -/
structure Mirrors (l : Ledger) (h : History) : Prop where
  store : l.store.Mirrors h.queue
  log : l.log = h.log

theorem Mirrors.step {l : Ledger} {h : History} (hm : Mirrors l h) (hq : h.queue.Sound)
    (hp : h.queue.Placed) (e : History.Event) : Mirrors (l.step e) (h.step e) := by
  obtain ⟨hstore, hlog⟩ := hm
  cases e with
  | register dest data reliable =>
    cases hr : h.queue.register dest data reliable with
    | error _ =>
      rw [History.step_of_error hr, Ledger.step, hstore.register_error hr]
      exact ⟨hstore, hlog⟩
    | ok result =>
      obtain ⟨store, hok, hstore'⟩ := hstore.register_ok hq hr
      rw [History.step_of_ok hr, Ledger.step, hok]
      exact ⟨hstore', congrArg _ hlog⟩
  | next =>
    obtain ⟨hout, hstore'⟩ := hstore.next hq hp
    refine ⟨hstore', ?_⟩
    show l.store.next.1.toList.map .emitted ++ l.log = h.queue.next.1.toList.map .emitted ++ h.log
    rw [hout, hlog]
  | markWritten n => exact ⟨hstore.markWritten n, congrArg _ hlog⟩
  | acknowledge ack =>
    obtain ⟨hout, hstore'⟩ := hstore.acknowledge hq ack
    refine ⟨hstore', ?_⟩
    show History.Fact.acknowledged ack (l.store.acknowledge ack).1 :: l.log =
      .acknowledged ack (h.queue.acknowledge ack).1 :: h.log
    rw [hout, hlog]
  | tick a b =>
    obtain ⟨hout, hstore'⟩ := hstore.tick hq a b
    refine ⟨hstore', ?_⟩
    show History.Fact.ticked (l.store.tick a b).1 :: l.log = .ticked (h.queue.tick a b).1 :: h.log
    rw [hout, hlog]
  | dropTo dest => exact ⟨(hstore.dropTo hq dest).2, congrArg _ hlog⟩

theorem mirrors_run (cs W : Nat) (events : List History.Event) :
    Mirrors (run cs W events) (History.run cs W events) := by
  induction events using List.reverseRecOn with
  | nil => exact ⟨.init cs W, rfl⟩
  | append_singleton events e ih =>
    have hs := History.sound_run cs W events
    rw [History.run_append, run, List.foldl_append]
    exact ih.step hs.queue hs.placed e

/-- Whatever is done with the queue, its representation is coherent. -/
theorem coherent_run (cs W : Nat) (events : List History.Event) :
    (run cs W events).store.Coherent ∧ Mirrors (run cs W events) (History.run cs W events) := by
  have hs := History.sound_run cs W events
  have hm := mirrors_run cs W events
  exact ⟨hm.store.coherent hs.queue hs.placed, hm⟩

end Ledger

end Courier.Outbound
