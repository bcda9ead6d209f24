import Courier.Proofs.Chunk.Codec
import Courier.Proofs.Lists
import Courier.Proofs.Outbound.Steps

/-!
The chunks of a message that was cut from some bytes: their headers are readable, and
their payloads are the pieces of those bytes.
-/

namespace Courier.Outbound

namespace Message

/-- The message was cut from the given bytes, and the number of its chunks fits on the
wire. -/
structure CutFrom (cs : Nat) (data : Bytes) (m : Message) : Prop where
  split : Chunk.split? data cs = some m.pieces
  total_le : m.total ≤ Chunk.maxCount

@[simp] theorem header_chunk (m : Message) (i : Nat) (resent : Bool) :
    (m.chunk i resent).header = m.header i := rfl

theorem kind_ne_ack (m : Message) : m.kind ≠ .ack := by
  unfold kind
  cases m.reliable <;> simp

theorem reliable_eq (m : Message) : m.reliable = decide (m.kind = .data) := by
  unfold kind
  cases m.reliable <;> rfl

namespace CutFrom

variable {cs : Nat} {data : Bytes} {m m' : Message} {i : Nat}

theorem kin (h : m.CutFrom cs data) (hk : Kin m m') : m'.CutFrom cs data :=
  ⟨hk.pieces ▸ h.split, hk.total ▸ h.total_le⟩

theorem cut (h : m.CutFrom cs data) : Chunk.Cut data cs m.pieces := .of_split? h.split

theorem toNat_total (h : m.CutFrom cs data) (i : Nat) : (m.header i).total.toNat = m.total := by
  have := h.total_le
  unfold Chunk.maxCount at this
  exact UInt16.toNat_ofNat_of_lt' (show m.total < 65536 by omega)

theorem toNat_index (h : m.CutFrom cs data) (hi : i < m.total) :
    (m.header i).index.toNat = i := by
  have := h.total_le
  unfold Chunk.maxCount at this
  exact UInt16.toNat_ofNat_of_lt' (show i < 65536 by omega)

theorem valid (h : m.CutFrom cs data) (hi : i < m.total) : (m.header i).Valid := by
  apply UInt16.lt_iff_toNat_lt.mpr
  rw [h.toNat_index hi, h.toNat_total]
  exact hi

theorem length_le (h : m.CutFrom cs data) (i : Nat) : (m.pieces.getD i []).length ≤ cs := by
  rw [h.cut.length_piece]
  exact Nat.min_le_left _ _

theorem count?_eq (h : m.CutFrom cs data) : Chunk.count? data.length cs = some m.total :=
  h.cut.count?_eq

/-- A message that was just taken in. -/
theorem of_register {q q' : Queue} {dest : SocketAddr} {reliable : Bool} {n : UInt64}
    (h : q.register dest data reliable = .ok (n, q')) {pieces : Array Bytes}
    (hs : Chunk.split? data q.chunkSize = some pieces) :
    CutFrom q.chunkSize data { sequence := n, dest, reliable, pieces } := by
  obtain ⟨_, _, _, hl, _⟩ := Queue.register_eq_ok_iff.mp h
  exact ⟨hs, (Chunk.Cut.of_split? hs).size_le_of_length_le hl⟩

end CutFrom

end Message

namespace Queue

/-- Numbers in the first queue that are not in the second. -/
def gone (q q' : Queue) : List UInt64 := (q.ring.map (·.sequence)).filter fun n => !q'.contains n

theorem mem_gone {q q' : Queue} (hq : q.Sound) {n : UInt64} :
    n ∈ gone q q' ↔ (∃ m, q.find? n = some m) ∧ q'.find? n = none := by
  rw [gone, List.mem_filter, List.mem_map]
  simp only [contains, Bool.not_eq_true', Option.isSome_eq_false_iff, Option.isNone_iff_eq_none,
    hq.find?_iff]

/-- An acknowledgement takes a message out of the queue only with the last of its
chunks. -/
theorem settled_of_gone {q : Queue} (hq : q.Sound) {ack : Chunk.Header} {n : UInt64}
    (hgone : n ∈ q.gone (q.acknowledge ack).2) :
    n = ack.sequence ∧ ∃ m, q.find? n = some m ∧ m.reliable = true ∧
      ∀ i < m.total, i = ack.index.toNat ∨ i ∈ m.acked := by
  have hack := acknowledges_acknowledge q ack
  obtain ⟨⟨x, hfind⟩, hnone⟩ := (mem_gone hq).mp hgone
  generalize q.acknowledge ack = result at hack hnone
  obtain ⟨b, q'⟩ := result
  dsimp only at hack hnone
  cases hack with
  | ignored =>
    rw [hfind] at hnone
    cases hnone
  | progress m m' found taken open_ =>
    rw [find?_progress found taken] at hnone
    by_cases hs : n = ack.sequence <;> simp [hs] at hnone
    simp [hfind] at hnone
  | settled m m' found taken all =>
    by_cases hs : n = ack.sequence
    · have hr := (Message.acknowledge?_eq_some_iff.mp taken).1.1
      exact ⟨hs, m, hs ▸ found, hr, (hq.message found).all_acked taken all⟩
    · rw [find?_settled hq found taken, if_neg hs, hfind] at hnone
      cases hnone

/-- What a tick gives up leaves the queue. -/
theorem gone_of_abandoned {q : Queue} (hq : q.Sound) {a b : Nat} {n : UInt64}
    (hn : n ∈ (q.tick a b).1.abandoned) : n ∈ q.gone (q.tick a b).2 := by
  obtain ⟨m, hm, hr, hlate⟩ := (mem_abandoned hq).mp hn
  refine (mem_gone hq).mpr ⟨⟨m, hm⟩, ?_⟩
  rw [find?_tick hq, hm, Option.bind_some]
  have ht := Message.ticks_tickMessage q.maxFlight a b m
  generalize tickMessage q.maxFlight a b m = result at ht ⊢
  obtain ⟨gone, m', t⟩ := result
  dsimp only at ht ⊢
  cases ht with
  | finished => rfl
  | abandoned => rfl
  | unfinished kind => simp [hr] at kind
  | again kind early => omega
  | waits kind early => omega

/-- What else a tick takes out of the queue are best-effort messages that were
written. -/
theorem finished_of_gone {q : Queue} (hq : q.Sound) {a b : Nat} {n : UInt64}
    (hn : n ∈ q.gone (q.tick a b).2) (hnot : n ∉ (q.tick a b).1.abandoned) :
    ∃ m, q.find? n = some m ∧ m.reliable = false ∧ m.firstUnsent = m.total ∧ m.queued = 0 := by
  obtain ⟨⟨m, hm⟩, hnone⟩ := (mem_gone hq).mp hn
  obtain ⟨m', t, ht⟩ := ticks_of_find?_none hq hm hnone
  cases ht with
  | finished kind sent idle => exact ⟨m, hm, kind, sent, idle⟩
  | abandoned kind late => exact absurd ((mem_abandoned hq).mpr ⟨m, hm, kind, late⟩) hnot

end Queue

end Courier.Outbound
