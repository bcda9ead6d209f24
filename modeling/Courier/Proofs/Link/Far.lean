import Courier.Proofs.Link.Near
import Mathlib.Data.List.Induction

/-!
The invariant of the far end: its table holds chunks that arrived, a message is
completed with the bytes that were registered, and unless something disturbs a message
its table entry is all that the log tells about it.
-/

namespace Courier.Link

open Outbound Reassembly

/-- A chunk of the message `n` with the given payload arrived and fits an incomplete
message. -/
def Brought (log : List Fact) (n : UInt64) (p : Partial) (i : Nat) (b : Bytes) : Prop :=
  ∃ o outcome d, .arrived o outcome d ∈ log ∧ o.header.sequence = n ∧ o.header.kind = p.kind ∧
    o.header.total = p.total ∧ o.header.index.toNat = i ∧ o.payload = b

theorem Brought.cons {log : List Fact} {n : UInt64} {p : Partial} {i : Nat} {b : Bytes}
    (h : Brought log n p i b) (f : Fact) : Brought (f :: log) n p i b := by
  obtain ⟨o, outcome, d, hm, h⟩ := h
  exact ⟨o, outcome, d, List.mem_cons_of_mem f hm, h⟩

theorem Brought.came {log : List Fact} {n : UInt64} {p : Partial} {i : Nat} {b : Bytes}
    (h : Brought log n p i b) : Came n i log := by
  obtain ⟨o, outcome, d, hm, hs, _, _, hi, _⟩ := h
  exact ⟨o, outcome, d, hm, hs, hi⟩

/-- What the application gets is what was registered under the number. -/
def Right (s : Setup) (log : List Fact) (n : UInt64) (data : Bytes) (d : Option Received) :
    Prop :=
  ∃ reliable, .registered n s.there data reliable ∈ log ∧
    d = some ⟨.ofSocketAddr .udp s.here, data, reliable⟩

structure Far (s : Setup) (l : Link) : Prop where
  table : l.far.inbound.Sound
  size : l.far.inbound.chunkSize = s.far.chunkSize
  limit : l.far.inbound.maxPartialBytes = s.far.maxPartialBytes
  held : ∀ k p, l.far.inbound.find? k = some p → k.1 = s.here ∧
    ∀ i b, p.pieces[i]? = some b → Brought l.log k.2 p i b
  done : ∀ k t, l.far.inbound.completed.lookup k = some t → k.1 = s.here ∧ Completed k.2 l.log
  delivered : ∀ o data d, .arrived o (.complete data) d ∈ l.log →
    Right s l.log o.header.sequence data d ∧
      ∀ i < o.header.total.toNat, Came o.header.sequence i l.log
  /-- undisturbed and incomplete: every chunk that came is here -/
  whole : ∀ n, Undisturbed s n l.log → ¬ Completed n l.log → ∀ i, Came n i l.log →
    ∃ p, l.far.inbound.find? (s.here, n) = some p ∧ i ∈ p.pieces
  /-- undisturbed and complete: that is remembered -/
  finished : ∀ n, Undisturbed s n l.log → Completed n l.log →
    (l.far.inbound.completed.lookup (s.here, n)).isSome

theorem far_init (s : Setup) : Far s (init s) where
  table := sound_empty _ _
  size := rfl
  limit := rfl
  held := by simp [init, Datagram.Channel.ofConfig, find?]
  done := by simp [init, Datagram.Channel.ofConfig]
  delivered := by simp [init]
  whole := by simp [init, Came]
  finished := by simp [init, Completed]

/-! ## Two chunks of one message -/

section Same

variable {s : Setup} {l : Link}

theorem Near.same_message (h : Near s l) {m m' : Message} (hm : Origin s.far.chunkSize l.log m)
    (hm' : Origin s.far.chunkSize l.log m') (hs : m.sequence = m'.sequence) :
    m.dest = m'.dest ∧ m.reliable = m'.reliable ∧ m.pieces = m'.pieces := by
  obtain ⟨data, hreg, hcut⟩ := hm
  obtain ⟨data', hreg', hcut'⟩ := hm'
  rw [hs] at hreg
  obtain ⟨hd, rfl, hr⟩ := h.unique _ _ _ _ _ _ _ hreg hreg'
  exact ⟨hd, hr, Option.some.inj (hcut.split.symm.trans hcut'.split)⟩

/-- Chunks of one message agree on all but their index. -/
theorem Near.same_header (h : Near s l) {o o' : Outgoing} (ho : Genuine s.far.chunkSize l.log o)
    (ho' : Genuine s.far.chunkSize l.log o') (hs : o.header.sequence = o'.header.sequence) :
    o.header.kind = o'.header.kind ∧ o.header.total = o'.header.total := by
  obtain ⟨m, i, _, hm, _, rfl⟩ := ho
  obtain ⟨m', i', _, hm', _, rfl⟩ := ho'
  obtain ⟨_, hr, hp⟩ := h.same_message hm hm' hs
  show m.kind = m'.kind ∧ UInt16.ofNat m.total = UInt16.ofNat m'.total
  unfold Message.kind Message.total
  rw [hr, hp]
  exact ⟨rfl, rfl⟩

/-- A chunk agrees with its message in the queue. -/
theorem Near.header_of_find? (h : Near s l) {o : Outgoing} (ho : o ∈ l.sent) {m : Message}
    (hm : l.near.outbound.find? o.header.sequence = some m) :
    o.header.kind = m.kind ∧ o.header.total.toNat = m.total := by
  obtain ⟨m', i, _, hm', _, rfl⟩ := h.genuine o ho
  obtain ⟨_, hr, hp⟩ := h.same_message hm' (h.origin _ m hm) (Queue.Sound.sequence hm).symm
  obtain ⟨_, _, hcut⟩ := hm'
  rw [Message.header_chunk, hcut.toNat_total]
  show m'.kind = m.kind ∧ m'.total = m.total
  unfold Message.kind Message.total
  rw [hr, hp]
  exact ⟨rfl, rfl⟩

/-- The chunks of a message in the queue are those of the registered bytes. -/
theorem Near.lt_total_iff (h : Near s l) {n : UInt64} {m : Message}
    (hm : l.near.outbound.find? n = some m) {dest : SocketAddr} {data : Bytes} {r : Bool}
    (hreg : .registered n dest data r ∈ l.log) (i : Nat) :
    i < m.total ↔ i * s.far.chunkSize < data.length := by
  obtain ⟨data', hreg', hcut⟩ := h.origin n m hm
  rw [Queue.Sound.sequence hm] at hreg'
  obtain ⟨_, rfl, _⟩ := h.unique _ _ _ _ _ _ _ hreg' hreg
  exact hcut.cut.lt_size_iff i

end Same

/-! ## Incomplete messages -/

section Held

variable {s : Setup} {l : Link} {n : UInt64} {p : Partial}

/-- What an incomplete message holds has come. -/
theorem Far.came_of_mem (hf : Far s l) (hp : l.far.inbound.find? (s.here, n) = some p) {i : Nat}
    (hi : i ∈ p.pieces) : Came n i l.log := by
  obtain ⟨b, hb⟩ := Option.isSome_iff_exists.mp (Std.TreeMap.mem_iff_isSome_getElem?.mp hi)
  exact ((hf.held _ p hp).2 i b hb).came

/-- It holds something. -/
theorem Far.exists_brought (hf : Far s l) {k : Key} (hp : l.far.inbound.find? k = some p) :
    ∃ i b, Brought l.log k.2 p i b := by
  have hpos := (hf.table.partials _ p hp).nonempty
  rw [← Std.TreeMap.length_keys] at hpos
  obtain ⟨i, hi⟩ := List.exists_mem_of_length_pos hpos
  obtain ⟨b, hb⟩ := Option.isSome_iff_exists.mp
    (Std.TreeMap.mem_iff_isSome_getElem?.mp (Std.TreeMap.mem_keys.mp hi))
  exact ⟨i, b, (hf.held _ p hp).2 i b hb⟩

/-- It has as many chunks as the same message in the queue. -/
theorem Far.total_eq (hf : Far s l) (hn : Near s l)
    (hp : l.far.inbound.find? (s.here, n) = some p) {m : Message}
    (hm : l.near.outbound.find? n = some m) : p.total.toNat = m.total := by
  obtain ⟨i, b, o, outcome, d, ho, hs, _, ht, _⟩ := hf.exists_brought hp
  change o.header.sequence = n at hs
  subst hs
  rw [← ht]
  exact (hn.header_of_find? (hn.travelled o outcome d ho).1 hm).2

/-- Its chunks are those of the registered bytes. -/
theorem Far.lt_total_iff (hf : Far s l) (hn : Near s l)
    (hp : l.far.inbound.find? (s.here, n) = some p) {dest : SocketAddr} {data : Bytes} {r : Bool}
    (hreg : .registered n dest data r ∈ l.log) (i : Nat) :
    i < p.total.toNat ↔ i * s.far.chunkSize < data.length := by
  obtain ⟨_, _, o, outcome, d, ho, hs, _, ht, _⟩ := hf.exists_brought hp
  obtain ⟨m, j, _, ⟨data', hreg', hcut⟩, _, rfl⟩ :=
    hn.genuine o (hn.travelled o outcome d ho).1
  rw [show m.sequence = n from hs] at hreg'
  obtain ⟨_, rfl, _⟩ := hn.unique _ _ _ _ _ _ _ hreg' hreg
  rw [← ht, Message.header_chunk, hcut.toNat_total]
  exact hcut.cut.lt_size_iff i

end Held

/-! ## Steps that do not concern the table -/

theorem Far.congr {s : Setup} {l l' : Link} (h : Far s l) (hf : l'.far.inbound = l.far.inbound)
    (hl : l'.log = l.log) : Far s l' := by
  obtain ⟨table, size, limit, held, done, delivered, whole, finished⟩ := h
  constructor <;> (try rw [hl]) <;> (try rw [hf]) <;> assumption

theorem Far.withLog {s : Setup} {l l' : Link} {f : Fact} (h : Far s l)
    (hf : l'.far.inbound = l.far.inbound) (hl : l'.log = f :: l.log)
    (ha : ∀ o outcome d, f ≠ .arrived o outcome d) : Far s l' := by
  refine ⟨hf ▸ h.table, hf ▸ h.size, hf ▸ h.limit, ?_, ?_, ?_, ?_, ?_⟩
  · intro k p hp
    rw [hf] at hp
    obtain ⟨hk, hb⟩ := h.held k p hp
    exact ⟨hk, fun i b hi => hl ▸ (hb i b hi).cons f⟩
  · intro k t ht
    rw [hf] at ht
    obtain ⟨hk, hc⟩ := h.done k t ht
    exact ⟨hk, hl ▸ hc.cons f⟩
  · intro o data d hm
    rw [hl] at hm
    rcases List.mem_cons.mp hm with heq | hm
    · exact absurd heq.symm (ha o _ d)
    · obtain ⟨⟨r, hreg, hd⟩, hall⟩ := h.delivered o data d hm
      rw [hl]
      exact ⟨⟨r, List.mem_cons_of_mem f hreg, hd⟩, fun i hi => (hall i hi).cons f⟩
  · intro n hu hc i hi
    rw [hl] at hu hc hi
    rw [completed_cons ha] at hc
    rw [came_cons ha] at hi
    rw [hf]
    exact h.whole n hu.tail hc i hi
  · intro n hu hc
    rw [hl] at hu hc
    rw [completed_cons ha] at hc
    rw [hf]
    exact h.finished n hu.tail hc

/-! ## A chunk that arrives -/

section Arrival

variable {s : Setup} {l : Link} {o : Outgoing} {now : Instant}

theorem Near.inserts (h : Near s l) (ho : o ∈ l.sent) (now : Instant) :
    Inserts l.far.inbound (s.here, o.header.sequence) o.header o.payload now
      (l.insert s o now).1 (l.insert s o now).2 :=
  inserts_insert _ _ (h.valid ho) _ _

/-- The message that a chunk goes into agrees with it. -/
theorem Far.target_same (hf : Far s l) (hn : Near s l) (ho : o ∈ l.sent) (now : Instant) :
    (l.far.inbound.target (s.here, o.header.sequence) o.header now).kind = o.header.kind ∧
      (l.far.inbound.target (s.here, o.header.sequence) o.header now).total = o.header.total := by
  unfold target
  cases hfind : l.far.inbound.find? (s.here, o.header.sequence) with
  | none => exact ⟨rfl, rfl⟩
  | some p =>
    -- it holds some chunk, which belongs to the same registered message
    obtain ⟨i, b, o', outcome, d, hm, hs, hk, ht, _⟩ := hf.exists_brought hfind
    have hgen := hn.genuine o' (hn.travelled o' outcome d hm).1
    obtain ⟨hk', ht'⟩ := hn.same_header hgen (hn.genuine o ho) hs
    exact ⟨hk.symm.trans hk', ht.symm.trans ht'⟩

/-- A chunk of a registered message is refused for lack of room only. -/
theorem Far.not_refused (hf : Far s l) (hn : Near s l) (ho : o ∈ l.sent) {reason : Reason}
    (fault : reason = .ackChunk ∧ o.header.kind = .ack ∨
      l.far.inbound.lengthFault (o.header.index.toNat + 1 == o.header.total.toNat)
        o.payload.length = some reason ∨
      reason = .totalDiffers ∧ (l.far.inbound.target (s.here, o.header.sequence) o.header
        now).total ≠ o.header.total ∨
      reason = .kindDiffers ∧ (l.far.inbound.target (s.here, o.header.sequence) o.header
        now).kind ≠ o.header.kind) : False := by
  obtain ⟨hkind, htotal⟩ := hf.target_same hn ho now
  rcases fault with ⟨_, hk⟩ | hl | ⟨_, ht⟩ | ⟨_, hk⟩
  · obtain ⟨m, i, _, _, _, rfl⟩ := hn.genuine o ho
    exact m.kind_ne_ack hk
  · obtain ⟨m, i, _, ⟨_, _, hm⟩, hi, rfl⟩ := hn.genuine o ho
    have hnone := lengthFault_chunk hm hi hf.size
    rw [Message.header_chunk, hm.toNat_index hi, hm.toNat_total,
      show (m.chunk i _).payload = m.pieces.getD i [] from rfl, hnone] at hl
    cases hl
  · exact ht htotal
  · exact hk hkind

/-- Every piece of the message with the chunk in it was brought by an arrival. -/
theorem Far.brought (hf : Far s l) (hn : Near s l) (ho : o ∈ l.sent) (now : Instant)
    (outcome : Outcome) (d : Option Received) {i : Nat} {b : Bytes}
    (hi : (l.far.inbound.filled (s.here, o.header.sequence) o.header o.payload now).pieces[i]? =
      some b) :
    Brought (.arrived o outcome d :: l.log) o.header.sequence
      (l.far.inbound.filled (s.here, o.header.sequence) o.header o.payload now) i b := by
  obtain ⟨hkind, htotal⟩ := hf.target_same hn ho now
  unfold filled at hi
  rw [Partial.getElem?_add] at hi
  by_cases hij : o.header.index.toNat = i
  · rw [if_pos hij] at hi
    cases hi
    exact ⟨o, outcome, d, List.mem_cons_self, rfl, hkind.symm, htotal.symm, hij, rfl⟩
  · rw [if_neg hij] at hi
    unfold target at hi
    cases hfind : l.far.inbound.find? (s.here, o.header.sequence) with
    | none => simp [hfind, Partial.unseen] at hi
    | some p =>
      rw [hfind] at hi
      have hb := ((hf.held _ p hfind).2 i b hi).cons (.arrived o outcome d)
      obtain ⟨o', outcome', d', hm, hs, hk, ht, hrest⟩ := hb
      have htarget : l.far.inbound.target (s.here, o.header.sequence) o.header now = p := by
        unfold target
        rw [hfind, Option.getD_some]
      refine ⟨o', outcome', d', hm, hs, ?_, ?_, hrest⟩
      · rw [hk, ← htarget]
        rfl
      · rw [ht, ← htarget]
        rfl

/-- What was brought for an index is the piece of the registered message. -/
theorem Near.piece_eq (hn : Near s l) (ho : o ∈ l.sent) {outcome : Outcome} {d : Option Received}
    {m : Message} (hm : Origin s.far.chunkSize l.log m) {n : UInt64} (hmn : n = m.sequence)
    {p : Partial} {i : Nat} {b : Bytes} (hb : Brought (.arrived o outcome d :: l.log) n p i b) :
    b = m.pieces.getD i [] := by
  obtain ⟨o', outcome', d', hmem, hs, _, _, hi, rfl⟩ := hb
  have hsent : o' ∈ l.sent := by
    rcases List.mem_cons.mp hmem with heq | hmem
    · cases heq
      exact ho
    · exact (hn.travelled o' outcome' d' hmem).1
  obtain ⟨m', j, _, hm', hj, rfl⟩ := hn.genuine o' hsent
  obtain ⟨_, _, hp⟩ := hn.same_message hm' hm (hs.trans hmn)
  obtain ⟨_, _, hcut⟩ := hm'
  rw [Message.header_chunk, hcut.toNat_index hj] at hi
  show m'.pieces.getD j [] = _
  rw [hp, hi]

/-- A message that has all its chunks holds the registered bytes. -/
theorem Far.data_eq (hf : Far s l) (hn : Near s l) (ho : o ∈ l.sent)
    (ha : l.far.inbound.Acceptable (s.here, o.header.sequence) o.header o.payload now)
    (all : o.header.total.toNat ≤
      (l.far.inbound.filled (s.here, o.header.sequence) o.header o.payload now).pieces.size) :
    .registered o.header.sequence o.dest
      ((l.far.inbound.filled (s.here, o.header.sequence) o.header o.payload now).data
        l.far.inbound.chunkSize) (o.header.kind = .data) ∈ l.log := by
  have hfits := hf.table.filled_fits (hn.valid ho) ha
  have htotal : (l.far.inbound.filled (s.here, o.header.sequence) o.header o.payload now).total =
    o.header.total := ha.sameTotal
  obtain ⟨m, i, resent, hm, hi, ho'⟩ := hn.genuine o ho
  have ⟨data, hreg, hcut⟩ := hm
  have hmt : o.header.total.toNat = m.total := by
    rw [ho']
    exact hcut.toNat_total i
  have hdata : (l.far.inbound.filled (s.here, o.header.sequence) o.header o.payload now).data
      l.far.inbound.chunkSize = data := by
    rw [Partial.data_of_full hfits (by rw [htotal]; omega) (by rw [htotal]; exact all), htotal,
      hmt, ← hcut.cut.flatMap_all]
    apply List.flatMap_congr
    intro j hj
    have hj : j < m.total := List.mem_range.mp hj
    have hget := Partial.getElem?_of_full hfits (by rw [htotal]; exact all)
      (show j < _ by rw [htotal, hmt]; exact hj)
    exact hn.piece_eq ho hm (by rw [ho']; rfl) (hf.brought hn ho now .incomplete none hget)
  rw [hdata, ho', show (m.chunk i resent).header.kind = m.kind from rfl, ← m.reliable_eq]
  exact hreg

/-- What a chunk that completes its message delivers. -/
theorem Far.right (hf : Far s l) (hn : Near s l) (ho : o ∈ l.sent) (hd : o.dest = s.there)
    (now : Instant) (data : Bytes) (hc : (l.insert s o now).1 = .complete data) :
    Right s l.log o.header.sequence data (delivery s o (.complete data)) := by
  obtain ⟨acceptable, all, rfl⟩ := (hn.inserts ho now).of_complete hc
  have hreg := hf.data_eq hn ho acceptable all
  rw [hd] at hreg
  exact ⟨_, hreg, rfl⟩

/-- When a chunk completes its message, all others have come. -/
theorem Far.came_of_complete (hf : Far s l) (hn : Near s l) (ho : o ∈ l.sent) (now : Instant)
    {data : Bytes} (hc : (l.insert s o now).1 = .complete data) {i : Nat}
    (hi : i < o.header.total.toNat) :
    o.header.index.toNat = i ∨ Came o.header.sequence i l.log := by
  obtain ⟨acceptable, all, _⟩ := (hn.inserts ho now).of_complete hc
  refine (hf.table.mem_target_of_full (hn.valid ho) acceptable all hi).imp_right fun hmem => ?_
  obtain ⟨p, hp, hmem⟩ := find?_of_mem_target hmem
  exact hf.came_of_mem hp hmem

section Inserted

variable {outcome : Outcome} {r : Reassembly} {d : Option Received} {n : UInt64}

theorem Far.whole_arrived (hf : Far s l) (hn : Near s l) (ho : o ∈ l.sent)
    (hins : Inserts l.far.inbound (s.here, o.header.sequence) o.header o.payload now outcome r)
    (hu : Undisturbed s n (.arrived o outcome d :: l.log))
    (hc : ¬ Completed n (.arrived o outcome d :: l.log)) {i : Nat}
    (hi : Came n i (.arrived o outcome d :: l.log)) :
    ∃ p, r.find? (s.here, n) = some p ∧ i ∈ p.pieces := by
  rw [completed_arrived_cons, not_or] at hc
  rw [came_arrived_cons] at hi
  have hold := hf.whole n hu.tail hc.2 i
  by_cases hno : n = o.header.sequence
  · subst hno
    cases hins with
    | known done =>
      obtain ⟨t, ht⟩ := Option.isSome_iff_exists.mp done
      exact absurd (hf.done _ t ht).2 hc.2
    | held unfinished present =>
      rcases hi with ⟨_, rfl⟩ | hi
      · exact find?_of_mem_target present
      · exact hold hi
    | refused reason unfinished fault => exact (hf.not_refused hn ho fault).elim
    | crowded => exact absurd ⟨rfl, Or.inl rfl⟩ (hu _ List.mem_cons_self)
    | beyond => exact absurd ⟨rfl, Or.inr rfl⟩ (hu _ List.mem_cons_self)
    | stored =>
      refine ⟨_, by rw [find?_keep, if_pos rfl], mem_filled.mpr ?_⟩
      rcases hi with ⟨_, hi⟩ | hi
      · exact Or.inl hi
      · obtain ⟨p, hp, hmem⟩ := hold hi
        exact Or.inr (target_eq hp ▸ hmem)
    | completed => exact absurd ⟨rfl, _, rfl⟩ hc.1
  · rw [(hins.other fun he => hno (Prod.mk.inj he).2).1]
    exact hold (hi.resolve_left fun h => hno h.1.symm)

theorem Far.finished_arrived (hf : Far s l)
    (hins : Inserts l.far.inbound (s.here, o.header.sequence) o.header o.payload now outcome r)
    (hu : Undisturbed s n (.arrived o outcome d :: l.log))
    (hc : Completed n (.arrived o outcome d :: l.log)) :
    (r.completed.lookup (s.here, n)).isSome := by
  rw [completed_arrived_cons] at hc
  have hold := hf.finished n hu.tail
  by_cases hno : n = o.header.sequence
  · subst hno
    cases hins with
    | known done => exact done
    | completed => rw [lookup_finish, if_pos rfl, Option.isSome_some]
    | _ => exact hold (hc.resolve_left (by simp))
  · rw [(hins.other fun he => hno (Prod.mk.inj he).2).2]
    exact hold (hc.resolve_left fun h => hno h.1.symm)

end Inserted

/-! ## Each step keeps it -/

theorem Far.arrived (hf : Far s l) (hn : Near s l) (ho : o ∈ l.sent) (hd : o.dest = s.there)
    (now : Instant) : Far s (l.received s o now) := by
  have hins := hn.inserts ho now
  refine ⟨hf.table.inserts (hn.valid ho) hins, hins.fields.1.trans hf.size,
    hins.fields.2.trans hf.limit, ?_, ?_, ?_, ?_, ?_⟩
  · intro k p hp
    rcases hins.find?_eq_some hp with hold | ⟨rfl, rfl⟩
    · obtain ⟨hk, hb⟩ := hf.held k p hold
      exact ⟨hk, fun i b hi => (hb i b hi).cons _⟩
    · exact ⟨rfl, fun i b hi => hf.brought hn ho now _ _ hi⟩
  · intro k t ht
    rcases hins.lookup_eq_some ht with hold | ⟨rfl, hdata⟩
    · obtain ⟨hk, hc⟩ := hf.done k t hold
      exact ⟨hk, hc.cons _⟩
    · exact ⟨rfl, completed_arrived_cons.mpr (Or.inl ⟨rfl, hdata⟩)⟩
  · intro o' data d hm
    rcases List.mem_cons.mp hm with heq | hm
    · obtain ⟨rfl, hc, rfl⟩ := Fact.arrived.inj heq
      obtain ⟨r, hreg, hdel⟩ := hf.right hn ho hd now data hc.symm
      refine ⟨⟨r, List.mem_cons_of_mem _ hreg, hc ▸ hdel⟩, fun i hi => ?_⟩
      exact came_arrived_cons.mpr
        ((hf.came_of_complete hn ho now hc.symm hi).imp_left fun hio => ⟨rfl, hio⟩)
    · obtain ⟨⟨r, hreg, hd⟩, hall⟩ := hf.delivered o' data d hm
      exact ⟨⟨r, List.mem_cons_of_mem _ hreg, hd⟩, fun i hi => (hall i hi).cons _⟩
  · exact fun n hu hc i hi => hf.whole_arrived hn ho hins hu hc hi
  · exact fun n hu hc => hf.finished_arrived hins hu hc

theorem Far.purged (hf : Far s l) (now : Instant) (timeout retention : Duration) :
    Far s (l.purged (l.far.inbound.purge now timeout retention).2) := by
  have hfind := hf.table.find?_purge now timeout retention
  have hlookup := hf.table.lookup_purge now timeout retention
  have hfields : (l.far.inbound.purge now timeout retention).2.chunkSize =
      l.far.inbound.chunkSize ∧ (l.far.inbound.purge now timeout retention).2.maxPartialBytes =
      l.far.inbound.maxPartialBytes := by rw [purge_snd]; exact ⟨rfl, rfl⟩
  have hsound := hf.table.purge now timeout retention
  unfold Link.purged
  generalize (l.far.inbound.purge now timeout retention).2 = r at hfind hlookup hsound hfields
  refine ⟨hsound, hfields.1.trans hf.size, hfields.2.trans hf.limit, ?_, ?_, ?_, ?_, ?_⟩
  · intro k p hp
    change r.find? k = some p at hp
    rw [hfind, Option.filter_eq_some_iff] at hp
    obtain ⟨hk, hb⟩ := hf.held k p hp.1
    exact ⟨hk, fun i b hi => (hb i b hi).cons _⟩
  · intro k t ht
    change r.completed.lookup k = some t at ht
    rw [hlookup, Option.filter_eq_some_iff] at ht
    obtain ⟨hk, hc⟩ := hf.done k t ht.1
    exact ⟨hk, hc.cons _⟩
  · intro o data d hm
    rcases List.mem_cons.mp hm with heq | hm
    · cases heq
    · obtain ⟨⟨rel, hreg, hd⟩, hall⟩ := hf.delivered o data d hm
      exact ⟨⟨rel, List.mem_cons_of_mem _ hreg, hd⟩, fun i hi => (hall i hi).cons _⟩
  · intro n hu hc i hi
    show ∃ p, r.find? (s.here, n) = some p ∧ i ∈ p.pieces
    rw [completed_cons (by simp)] at hc
    rw [came_cons (by simp)] at hi
    obtain ⟨p, hp, hmem⟩ := hf.whole n hu.tail hc i hi
    -- had it gone, the purge would have disturbed the message
    cases hr : r.find? (s.here, n) with
    | none => exact absurd (Or.inl (mem_discarded.mpr ⟨⟨p, hp⟩, hr⟩)) (hu _ List.mem_cons_self)
    | some p' =>
      rw [hfind, Option.filter_eq_some_iff, hp] at hr
      exact ⟨p, hr.1.symm, hmem⟩
  · intro n hu hc
    show (r.completed.lookup (s.here, n)).isSome
    rw [completed_cons (by simp)] at hc
    obtain ⟨t, ht⟩ := Option.isSome_iff_exists.mp (hf.finished n hu.tail hc)
    cases hr : r.completed.lookup (s.here, n) with
    | none => exact absurd (Or.inr (mem_forgotten.mpr ⟨⟨t, ht⟩, hr⟩)) (hu _ List.mem_cons_self)
    | some t' => rfl

theorem Far.step {e : Event} {l' : Link} (hf : Far s l) (hn : Near s l) (hs : Steps s l e l') :
    Far s l' := by
  cases hs with
  | registered => exact hf.withLog rfl rfl (by simp)
  | arrived place o now found dest => exact hf.arrived hn (List.mem_of_getElem? found) dest now
  | acknowledged => exact hf.withLog rfl rfl (by simp)
  | purged now timeout retention => exact hf.purged now timeout retention
  | _ => exact hf.congr rfl rfl

end Arrival

/-- Both invariants hold in every run. -/
theorem sound_run (s : Setup) (events : List Event) :
    Near s (run s events) ∧ Far s (run s events) := by
  induction events using List.reverseRecOn with
  | nil => exact ⟨near_init s, far_init s⟩
  | append_singleton events e ih =>
    rw [run_append]
    obtain ⟨hn, hf⟩ := ih
    have hs := hn.steps e
    exact ⟨hn.step hs, hf.step hn hs⟩

end Courier.Link
