import Courier.Proofs.Config
import Courier.Proofs.Outbound.Chunks
import Courier.Proofs.Reassembly.Ledger

/-!
Two ends with the same settings: what one takes for sending, and what the other can put
together. Main statement: a message whose chunks all arrive, in any order, is completed by
the last of them if the buffers are as large as the message, and never if they are not.
The sender looks at the number of chunks only.
-/

namespace Courier.Datagram.Admission

open Outbound (Message Queue)
open Reassembly

/-- What becomes of chunks of a message, given by their indices, that arrive one after the
other. -/
def outcomes (sender : SocketAddr) (m : Message) :
    Reassembly → List (Nat × Instant) → List Outcome
  | _, [] => []
  | r, (i, now) :: rest =>
    let (outcome, r) := r.insert sender (m.chunk i false).header (m.chunk i false).payload now
    outcome :: outcomes sender m r rest

section

variable {cs limit : Nat} {data : Bytes} {m : Message} {sender : SocketAddr} {taken : List Nat}
  {l : Ledger} {r : Reassembly} {i : Nat} {now : Instant}

/-- The arrival of one chunk of a message. -/
def arrival (hm : m.CutFrom cs data) (sender : SocketAddr) (hi : i < m.total) (now : Instant) :
    Arrival :=
  ⟨sender, (m.chunk i false).header, hm.valid hi, (m.chunk i false).payload, now⟩

theorem index_arrival (hm : m.CutFrom cs data) (hi : i < m.total) :
    (arrival hm sender hi now).index = i :=
  hm.toNat_index hi

theorem total_arrival (hm : m.CutFrom cs data) (hi : i < m.total) :
    (arrival hm sender hi now).total = m.total :=
  hm.toNat_total i

theorem outcomes_cons (hm : m.CutFrom cs data) (hi : i < m.total)
    (rest : List (Nat × Instant)) {result : Outcome × Reassembly}
    (hresult : r.insert (arrival hm sender hi now).sender (arrival hm sender hi now).header
      (arrival hm sender hi now).payload (arrival hm sender hi now).now = result) :
    outcomes sender m r ((i, now) :: rest) = result.1 :: outcomes sender m result.2 rest := by
  subst hresult
  rfl

/-- Nothing was taken but chunks of one message. -/
structure Part (cs limit : Nat) (sender : SocketAddr) (m : Message) (taken : List Nat)
    (l : Ledger) : Prop where
  size : l.chunkSize = cs
  limit : l.limit = limit
  delivered : l.delivered = []
  chunk : ∀ a ∈ l.taken, a.sender = sender ∧ a.header = m.header a.index ∧
    a.payload = m.pieces.getD a.index []
  indices : l.taken.map (·.index) = taken

theorem part_empty : Part cs limit sender m [] { chunkSize := cs, limit } where
  size := rfl
  limit := rfl
  delivered := rfl
  chunk := by simp
  indices := rfl

namespace Part

theorem key_eq (h : Part cs limit sender m taken l) {a : Arrival} (ha : a ∈ l.taken) :
    a.key = (sender, m.sequence) := by
  obtain ⟨hs, hh, _⟩ := h.chunk a ha
  rw [Arrival.key, hs, hh]
  rfl

theorem held_eq (h : Part cs limit sender m taken l) :
    l.held (sender, m.sequence) = l.taken :=
  List.filter_eq_self.mpr fun _ ha => decide_eq_true (h.key_eq ha)

theorem used_eq (h : Part cs limit sender m taken l) : l.used = reach cs l.taken := by
  have hkeys : l.taken.map (·.key) = List.replicate l.taken.length (sender, m.sequence) := by
    refine List.eq_replicate_iff.mpr ⟨List.length_map _, fun k hk => ?_⟩
    obtain ⟨a, ha, rfl⟩ := List.mem_map.mp hk
    exact h.key_eq ha
  unfold Ledger.used
  rw [hkeys]
  by_cases hnil : l.taken = []
  · rw [hnil]
    rfl
  · rw [List.replicate_dedup (by simpa using hnil)]
    simp [h.held_eq, h.size]

theorem exists_taken (h : Part cs limit sender m taken l) {j : Nat} :
    j ∈ taken ↔ ∃ b ∈ l.taken, b.index = j := by
  rw [← h.indices, List.mem_map]

/-- Chunks do not reach beyond their message. -/
theorem reach_le_length (h : Part cs limit sender m taken l) (hm : m.CutFrom cs data)
    (hlt : ∀ j ∈ taken, j < m.total) : reach cs l.taken ≤ data.length := by
  refine reach_le fun a ha => ?_
  obtain ⟨_, _, hp⟩ := h.chunk a ha
  rw [Arrival.stop, hp]
  exact hm.cut.end_le (hlt _ (h.exists_taken.mpr ⟨a, ha, rfl⟩))

theorem held_arrival (h : Part cs limit sender m taken l) (hm : m.CutFrom cs data)
    (hi : i < m.total) : l.held (arrival hm sender hi now).key = l.taken :=
  h.held_eq

/-- A message for which there is room has room for each of its chunks. -/
theorem takes (h : Part cs limit sender m taken l) (hm : m.CutFrom cs data) (hi : i < m.total)
    (hlt : ∀ j ∈ taken, j < m.total) (hnew : i ∉ taken) (hroom : data.length ≤ limit)
    (hsize : data.length ≤ sizeMax) : l.Takes (arrival hm sender hi now) := by
  have hstop : (arrival hm sender hi now).stop cs ≤ data.length := by
    rw [Arrival.stop, index_arrival]
    exact hm.cut.end_le hi
  have hreach := h.reach_le_length hm hlt
  have hused := h.used_eq
  have hgrowth : l.growth (arrival hm sender hi now) =
      (arrival hm sender hi now).stop cs - reach cs l.taken := by
    rw [Ledger.growth, h.held_arrival hm hi, h.size]
  have hword : sizeMax < wordMax := by decide
  refine ⟨⟨?_, m.kind_ne_ack, ?_, ?_, ?_, ?_⟩, ?_, ?_⟩
  · rw [h.delivered]
    rfl
  · unfold Arrival.Legal
    rw [index_arrival, total_arrival, h.size]
    split
    · exact (hm.cut.length_last ‹_›).2
    · exact hm.cut.length_full (show i + 1 < m.total by omega)
  · intro first hfirst
    rw [h.held_arrival hm hi] at hfirst
    obtain ⟨_, hh, _⟩ := h.chunk first (List.mem_of_getLast? hfirst)
    rw [hh]
    exact ⟨rfl, rfl⟩
  · intro b hb
    rw [h.held_arrival hm hi] at hb
    rw [index_arrival]
    rintro rfl
    exact hnew (h.exists_taken.mpr ⟨b, hb, rfl⟩)
  · rw [hgrowth, h.limit]
    omega
  · rw [h.size]
    omega
  · rw [hgrowth]
    omega

theorem finishes_iff (h : Part cs limit sender m taken l) (hm : m.CutFrom cs data)
    (hi : i < m.total) :
    l.Finishes (arrival hm sender hi now) ↔ ∀ j < m.total, i = j ∨ j ∈ taken := by
  unfold Ledger.Finishes
  rw [total_arrival, h.held_arrival hm hi]
  refine forall₂_congr fun j _ => ?_
  rw [h.exists_taken]
  simp [index_arrival]

theorem message_eq (h : Part cs limit sender m taken l) (hm : m.CutFrom cs data)
    (hi : i < m.total) (hf : l.Finishes (arrival hm sender hi now))
    (heach : ∀ b ∈ arrival hm sender hi now :: l.taken,
      payloadAt (arrival hm sender hi now :: l.taken) b.index = b.payload) :
    l.message (arrival hm sender hi now) = data := by
  have hat : ∀ j < m.total,
      payloadAt (arrival hm sender hi now :: l.taken) j = m.pieces.getD j [] := by
    intro j hj
    obtain ⟨b, hb, rfl⟩ := hf j (by rwa [total_arrival])
    rw [h.held_arrival hm hi] at hb
    rw [heach b hb]
    rcases List.mem_cons.mp hb with rfl | hb
    · rw [index_arrival]
      rfl
    · exact (h.chunk b hb).2.2
  rw [Ledger.message, h.held_arrival hm hi, total_arrival]
  refine Eq.trans ?_ hm.cut.flatMap_all
  unfold inOrder
  rw [List.flatMap_def, List.flatMap_def,
    List.map_congr_left fun j hj => hat j (List.mem_range.mp hj)]
  rfl

theorem arrive_taken (h : Part cs limit sender m taken l) (hm : m.CutFrom cs data)
    (hi : i < m.total) (ht : l.Takes (arrival hm sender hi now))
    (hf : ¬ l.Finishes (arrival hm sender hi now)) :
    Part cs limit sender m (i :: taken) (l.arrive (arrival hm sender hi now)) := by
  rw [Ledger.arrive, if_pos ht, if_neg hf]
  refine ⟨h.size, h.limit, h.delivered, fun a ha => ?_, ?_⟩
  · rcases List.mem_cons.mp ha with rfl | ha
    · rw [index_arrival]
      exact ⟨rfl, rfl, rfl⟩
    · exact h.chunk a ha
  · rw [List.map_cons, index_arrival, h.indices]

/-- The final chunk of a message that is larger than the buffers is not accepted. -/
theorem not_takes_last (h : Part cs limit sender m taken l) (hr : Mirrors l r)
    (hm : m.CutFrom cs data) (hi : i < m.total) (hlast : i + 1 = m.total)
    (hlarge : limit < data.length) : ¬ l.Takes (arrival hm sender hi now) := by
  intro ht
  have hstop : (arrival hm sender hi now).stop l.chunkSize = data.length := by
    rw [Arrival.stop, index_arrival, h.size]
    exact (hm.cut.length_last hlast).1
  have hroom := ht.1.room
  have hused := hr.used_le
  have hreach := hr.reach_le_used (arrival hm sender hi now)
  rw [Ledger.growth, hstop, h.limit] at hroom
  rw [h.limit] at hused
  omega

end Part

/-! ## All chunks, one after the other -/

theorem outcomes_of_le (hm : m.CutFrom cs data) (hroom : data.length ≤ limit)
    (hsize : data.length ≤ sizeMax) {order : List (Nat × Instant)}
    (hp : Part cs limit sender m taken l) (hr : Mirrors l r)
    (hperm : (taken ++ order.map (·.1)).Perm (List.range m.total)) (hne : order ≠ []) :
    outcomes sender m r order =
      List.replicate (order.length - 1) .incomplete ++ [.complete data] := by
  induction order generalizing taken l r with
  | nil => exact absurd rfl hne
  | cons x rest ih =>
    obtain ⟨i, now⟩ := x
    have hmem : ∀ j, j ∈ taken ∨ j = i ∨ j ∈ rest.map (·.1) ↔ j < m.total := fun j => by
      rw [← List.mem_range, ← hperm.mem_iff]
      simp
    have hnodup := hperm.nodup_iff.mpr List.nodup_range
    have hi : i < m.total := (hmem i).mp (Or.inr (Or.inl rfl))
    have hnew : i ∉ taken := fun hin =>
      (List.nodup_append.mp hnodup).2.2 i hin i List.mem_cons_self rfl
    have ht : l.Takes (arrival hm sender hi now) :=
      hp.takes hm hi (fun j hj => (hmem j).mp (Or.inl hj)) hnew hroom hsize
    obtain ⟨hexp, hr'⟩ := hr.arrive (arrival hm sender hi now)
    rw [outcomes_cons hm hi rest rfl]
    have hfin : l.Finishes (arrival hm sender hi now) ↔ _ := hp.finishes_iff hm hi
    by_cases hrest : rest = []
    · -- the last chunk
      subst hrest
      have hf := hfin.mpr fun j hj => ((hmem j).mpr hj).elim Or.inr fun h =>
        Or.inl (h.resolve_right (by simp)).symm
      have heach := hexp.each ht
      rw [hp.held_arrival hm hi] at heach
      have hdata := hp.message_eq hm hi hf heach
      rw [(hexp.complete_iff data).mpr ⟨ht, hf, hdata.symm⟩]
      rfl
    · have hf : ¬ l.Finishes (arrival hm sender hi now) := fun hf => by
        obtain ⟨y, hy⟩ := List.exists_mem_of_ne_nil rest hrest
        have hyr : y.1 ∈ rest.map (·.1) := List.mem_map.mpr ⟨y, hy, rfl⟩
        have hdis := List.nodup_append.mp hnodup
        rcases hfin.mp hf y.1 ((hmem y.1).mp (Or.inr (Or.inr hyr))) with heq | hin
        · exact (List.nodup_cons.mp hdis.2.1).1 (heq ▸ hyr)
        · exact hdis.2.2 y.1 hin y.1 (List.mem_cons_of_mem i hyr) rfl
      rw [hexp.incomplete_iff.mpr ⟨ht, hf⟩,
        ih (hp.arrive_taken hm hi ht hf) hr' (List.perm_middle.symm.trans hperm) hrest]
      obtain ⟨n, hn⟩ : ∃ n, rest.length = n + 1 :=
        ⟨rest.length - 1, by have := List.length_pos_iff.mpr hrest; omega⟩
      simp [hn, List.replicate_succ]

theorem not_complete_of_lt (hm : m.CutFrom cs data) (hpos : 0 < m.total)
    (hlarge : limit < data.length) {order : List (Nat × Instant)}
    (hp : Part cs limit sender m taken l) (hr : Mirrors l r) (hlast : m.total - 1 ∉ taken)
    (horder : ∀ x ∈ order, x.1 < m.total) (other : Bytes) :
    .complete other ∉ outcomes sender m r order := by
  induction order generalizing taken l r with
  | nil => exact List.not_mem_nil
  | cons x rest ih =>
    obtain ⟨i, now⟩ := x
    have hi : i < m.total := horder (i, now) List.mem_cons_self
    obtain ⟨hexp, hr'⟩ := hr.arrive (arrival hm sender hi now)
    have hrest : ∀ y ∈ rest, y.1 < m.total := fun y hy => horder y (List.mem_cons_of_mem _ hy)
    have hother : l.Takes (arrival hm sender hi now) → i + 1 ≠ m.total := fun ht hil =>
      hp.not_takes_last hr hm hi hil hlarge ht
    have hf : l.Takes (arrival hm sender hi now) → ¬ l.Finishes (arrival hm sender hi now) := by
      intro ht hf
      rcases (hp.finishes_iff hm hi).mp hf (m.total - 1) (by omega) with heq | hin
      · exact hother ht (by omega)
      · exact hlast hin
    rw [outcomes_cons hm hi rest rfl, List.mem_cons, not_or]
    constructor
    · intro hc
      obtain ⟨ht, hfin, _⟩ := (hexp.complete_iff other).mp hc.symm
      exact hf ht hfin
    · by_cases ht : l.Takes (arrival hm sender hi now)
      · refine ih (hp.arrive_taken hm hi ht (hf ht)) hr' ?_ hrest
        have := hother ht
        exact List.not_mem_cons_of_ne_of_not_mem (by omega) hlast
      · rw [Ledger.arrive, if_neg ht] at hr'
        exact ih hp hr' hlast hrest

end

/-- What a queue takes in is put together at the other end exactly if the buffers there are as
large as the message. -/
theorem admitted_iff {c : Config} (hc : c.validate = .ok ()) {q q' : Queue}
    (hq : q.chunkSize = c.chunkSize) {dest : SocketAddr} {data : Bytes} {reliable : Bool}
    {n : UInt64} (hreg : q.register dest data reliable = .ok (n, q')) {m : Message}
    (hm : q'.ring = q.ring ++ [m]) (sender : SocketAddr) {order : List (Nat × Instant)}
    (horder : (order.map (·.1)).Perm (List.range m.total)) :
    (data.length ≤ c.maxPartialBytes →
      outcomes sender m { chunkSize := c.chunkSize, maxPartialBytes := c.maxPartialBytes } order =
        List.replicate (m.total - 1) .incomplete ++ [.complete data]) ∧
    (c.maxPartialBytes < data.length → ∀ other, .complete other ∉
      outcomes sender m { chunkSize := c.chunkSize, maxPartialBytes := c.maxPartialBytes }
        order) := by
  obtain ⟨rfl, _, hdata, hlength, _, pieces, hsplit, rfl⟩ := Queue.register_eq_ok_iff.mp hreg
  have hcut := Message.CutFrom.of_register hreg hsplit
  obtain rfl : _ = m := List.singleton_inj.mp (List.append_cancel_left hm)
  rw [hq] at hlength hcut
  have hpos : 0 < pieces.size :=
    (hcut.cut.lt_size_iff 0).mpr (by simpa using List.length_pos_iff.mpr hdata)
  have hsize : data.length ≤ sizeMax := by
    have hpacket := ((Config.validate_eq_ok_iff c).mp hc).packetSize_le
    unfold Config.maxPacketSize at hpacket
    unfold Config.chunkSize Chunk.maxCount at hlength
    unfold sizeMax
    omega
  have hmirrors := mirrors_empty c.chunkSize c.maxPartialBytes
  constructor
  · intro hroom
    have hlen : order.length = pieces.size := by
      simpa [Message.total] using horder.length_eq
    have hne : order ≠ [] := by
      rintro rfl
      simp at hlen
      omega
    rw [outcomes_of_le hcut hroom hsize part_empty hmirrors (by simpa using horder) hne, hlen]
    rfl
  · intro hlarge other
    refine not_complete_of_lt hcut hpos hlarge part_empty hmirrors (List.not_mem_nil) ?_ other
    exact fun x hx => List.mem_range.mp (horder.mem_iff.mp (List.mem_map.mpr ⟨x, hx, rfl⟩))

/-- Chunks of one byte, and buffers of the given size. -/
def tiny (limit : Nat) : Config := { packetSize := 14, maxPartialBytes := limit }

def somePeer : SocketAddr := { ip := .v4 127 0 0 1, port := 7001 }

/-- A message in chunks of one byte. -/
def bytewise (data : Bytes) : Message where
  sequence := 0
  dest := somePeer
  reliable := true
  pieces := (data.map fun b => [b]).toArray

def idle : Queue := { chunkSize := 1, maxFlight := 4 }

theorem admitted_threeBytes :
    (tiny 3).validate = .ok () ∧
      idle.register somePeer [1, 2, 3] true =
        .ok (0, { idle with nextNumber := 1, ring := [bytewise [1, 2, 3]] }) ∧
      outcomes somePeer (bytewise [1, 2, 3]) { chunkSize := 1, maxPartialBytes := 3 }
        [(2, 0), (0, 5), (1, 9)] = [.incomplete, .incomplete, .complete [1, 2, 3]] := by
  have hregister : idle.register somePeer [1, 2, 3] true =
      .ok (0, { idle with nextNumber := 1, ring := [bytewise [1, 2, 3]] }) := rfl
  have horder : ([(2, 0), (0, 5), (1, 9)].map (·.1)).Perm
      (List.range (bytewise [1, 2, 3]).total) := by decide
  exact ⟨rfl, hregister,
    (admitted_iff (c := tiny 3) rfl rfl hregister rfl somePeer horder).1 (by decide)⟩

/-- Buffers for one chunk are enough for accepted settings. The second chunk of a message that
was taken for sending finds no room there. -/
theorem refused_twoBytes :
    (tiny 1).validate = .ok () ∧
      idle.register somePeer [1, 2] true =
        .ok (0, { idle with nextNumber := 1, ring := [bytewise [1, 2]] }) ∧
      outcomes somePeer (bytewise [1, 2]) { chunkSize := 1, maxPartialBytes := 1 }
        [(0, 0), (1, 0)] = [.incomplete, .rejected .bufferLimit] :=
  ⟨rfl, rfl, by decide⟩

end Courier.Datagram.Admission
