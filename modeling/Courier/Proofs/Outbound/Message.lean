import Courier.Outbound.Queue
import Courier.Proofs.Lists
import Mathlib.Data.List.TakeWhile

/-!
One message on its way out: what an emission, an acknowledgement and a resend tick
make of it, as case distinctions, and the invariant `Sound` that all three keep.
-/

namespace Courier.Outbound.Message

/-- The same message at another time. -/
structure Kin (m m' : Message) : Prop where
  sequence : m'.sequence = m.sequence
  dest : m'.dest = m.dest
  reliable : m'.reliable = m.reliable
  pieces : m'.pieces = m.pieces

theorem Kin.refl (m : Message) : Kin m m := ⟨rfl, rfl, rfl, rfl⟩

theorem Kin.trans {a b c : Message} (h : Kin a b) (g : Kin b c) : Kin a c :=
  ⟨g.1.trans h.1, g.2.trans h.2, g.3.trans h.3, g.4.trans h.4⟩

theorem Kin.total {m m' : Message} (h : Kin m m') : m'.total = m.total := by
  rw [Message.total, h.pieces, Message.total]

theorem Kin.header_eq {m m' : Message} (h : Kin m m') (i : Nat) : m'.header i = m.header i := by
  simp [header, kind, h.sequence, h.reliable, h.total]

theorem Kin.chunk_eq {m m' : Message} (h : Kin m m') (i : Nat) (resent : Bool) :
    m'.chunk i resent = m.chunk i resent := by
  simp [chunk, h.header_eq, h.dest, h.pieces]

/-! ## The three operations, case by case -/

/-- Everything that asking a message for a chunk can do. -/
inductive Emits (W : Nat) (m : Message) : Option Outgoing → Message → Prop
  | again (i : Nat) (rest : List Nat)
      (lost : m.lost.dropWhile (m.acked.contains ·) = i :: rest) :
      Emits W m (some (m.chunk i true)) { m with lost := rest, queued := m.queued + 1 }
  | fresh (lost : m.lost.dropWhile (m.acked.contains ·) = [])
      (unsent : m.firstUnsent ≠ m.total) (room : m.hasRoom W = true) :
      Emits W m (some (m.chunk m.firstUnsent false))
        { m with
          lost := []
          firstUnsent := m.firstUnsent + 1
          queued := m.queued + 1
          outstanding := if m.reliable then m.outstanding + 1 else m.outstanding }
  | idle (lost : m.lost.dropWhile (m.acked.contains ·) = [])
      (stuck : m.firstUnsent = m.total ∨ m.hasRoom W = false) :
      Emits W m none { m with lost := [] }

theorem emits_emit (W : Nat) (m : Message) : Emits W m (m.emit W).1 (m.emit W).2 := by
  unfold emit
  cases hl : m.lost.dropWhile (m.acked.contains ·) with
  | cons i rest => exact .again i rest hl
  | nil =>
    have ht : ({ m with lost := [] } : Message).allSent = m.allSent := rfl
    have hr : ({ m with lost := [] } : Message).hasRoom W = m.hasRoom W := rfl
    simp only [ht, hr]
    cases ha : m.allSent <;> cases hc : m.hasRoom W
    · exact .idle hl (Or.inr hc)
    · exact .fresh hl (by simpa [allSent] using ha) hc
    · exact .idle hl (Or.inr hc)
    · exact .idle hl (Or.inl (by simpa [allSent] using ha))

theorem emits_of_fst {W : Nat} {m : Message} {o : Option Outgoing} (h : (m.emit W).1 = o) :
    Emits W m o (m.emit W).2 := h ▸ emits_emit W m

/-- Everything that a resend tick can do to a message. -/
inductive Ticks (W tickThreshold threshold : Nat) (m : Message) : Bool → Message → Tick → Prop
  | finished (kind : m.reliable = false) (sent : m.firstUnsent = m.total) (idle : m.queued = 0) :
      Ticks W tickThreshold threshold m true m { purged := 1 }
  | unfinished (kind : m.reliable = false) (busy : m.firstUnsent ≠ m.total ∨ m.queued ≠ 0) :
      Ticks W tickThreshold threshold m false m {}
  | abandoned (kind : m.reliable = true) (late : threshold ≤ m.stalledTicks + 1) :
      Ticks W tickThreshold threshold m true { m with stalledTicks := m.stalledTicks + 1 }
        { abandoned := [m.sequence] }
  | again (kind : m.reliable = true) (early : m.stalledTicks + 1 < threshold)
      (due : tickThreshold ≤ m.stalledTicks + 1) :
      Ticks W tickThreshold threshold m false
        { m with stalledTicks := m.stalledTicks + 1, lost := m.unacked.take W }
        { resent := (m.unacked.take W).length }
  | waits (kind : m.reliable = true) (early : m.stalledTicks + 1 < threshold)
      (notDue : m.stalledTicks + 1 < tickThreshold) :
      Ticks W tickThreshold threshold m false { m with stalledTicks := m.stalledTicks + 1 } {}

theorem ticks_tickMessage (W tickThreshold threshold : Nat) (m : Message) :
    Ticks W tickThreshold threshold m (Queue.tickMessage W tickThreshold threshold m).1
      (Queue.tickMessage W tickThreshold threshold m).2.1
      (Queue.tickMessage W tickThreshold threshold m).2.2 := by
  unfold Queue.tickMessage
  by_cases hk : m.reliable = true
  · rw [if_neg (by simp [hk])]
    by_cases ht : threshold ≤ m.stalledTicks + 1
    · simpa only [if_pos ht] using Ticks.abandoned hk ht
    · by_cases hd : tickThreshold ≤ m.stalledTicks + 1
      · simp only [if_neg ht, if_pos hd]
        exact Ticks.again hk (by omega) hd
      · simpa only [if_neg ht, if_neg hd] using Ticks.waits hk (by omega) (by omega)
  · have hf : m.reliable = false := by simpa using hk
    rw [if_pos (by simp [hf])]
    by_cases hs : m.firstUnsent = m.total <;> by_cases hq : m.queued = 0
    · simpa [allSent, hs, hq] using Ticks.finished hf hs hq
    · simpa [allSent, hs, hq] using Ticks.unfinished hf (Or.inr hq)
    · simpa [allSent, hs, hq] using Ticks.unfinished hf (Or.inl hs)
    · simpa [allSent, hs, hq] using Ticks.unfinished hf (Or.inl hs)

theorem acknowledge?_eq_some_iff {m m' : Message} {total : UInt16} {i : Nat} :
    m.acknowledge? total i = some m' ↔
      (m.reliable = true ∧ total.toNat = m.total ∧ i < m.firstUnsent ∧ i ∉ m.acked) ∧
        m' = { m with
          acked := m.acked.insert i
          outstanding := m.outstanding - 1
          stalledTicks := 0 } := by
  unfold acknowledge?
  simp only [Bool.and_eq_true, beq_iff_eq, decide_eq_true_eq, Bool.not_eq_true',
    Std.TreeSet.mem_iff_contains, Bool.not_eq_true]
  constructor
  · intro h
    split at h
    · cases h
      exact ⟨by simp_all, rfl⟩
    · cases h
  · rintro ⟨⟨hr, ht, hi, ha⟩, rfl⟩
    rw [if_pos ⟨⟨⟨hr, ht⟩, hi⟩, ha⟩]

theorem Emits.kin {W : Nat} {m m' : Message} {o : Option Outgoing} (h : Emits W m o m') :
    Kin m m' := by
  cases h <;> exact ⟨rfl, rfl, rfl, rfl⟩

theorem Emits.grows {W : Nat} {m m' : Message} {o : Option Outgoing} (h : Emits W m o m') :
    m.firstUnsent ≤ m'.firstUnsent ∧ m'.acked = m.acked := by
  cases h
  · exact ⟨Nat.le_refl _, rfl⟩
  · exact ⟨Nat.le_succ _, rfl⟩
  · exact ⟨Nat.le_refl _, rfl⟩

theorem Emits.unsent_of_none {W : Nat} {m m' : Message} (h : Emits W m none m') :
    m'.firstUnsent = m.firstUnsent := by
  cases h with
  | idle => rfl

/-- A message counts what it emits. -/
theorem Emits.counts {W : Nat} {m m' : Message} {o : Option Outgoing} (h : Emits W m o m') :
    m'.queued = m.queued + o.toList.length := by
  cases h <;> rfl

theorem Emits.covers {W : Nat} {m m' : Message} {o : Option Outgoing} (h : Emits W m o m')
    {i : Nat} (hi : i < m'.firstUnsent) : i < m.firstUnsent ∨
      i = m.firstUnsent ∧ m.firstUnsent ≠ m.total ∧ o = some (m.chunk i false) := by
  cases h with
  | again => exact Or.inl hi
  | idle => exact Or.inl hi
  | fresh _ unsent =>
    rcases Nat.lt_succ_iff_lt_or_eq.mp hi with hlt | rfl
    · exact Or.inl hlt
    · exact Or.inr ⟨rfl, unsent, rfl⟩

theorem Ticks.kin {W a b : Nat} {m m' : Message} {gone : Bool} {t : Tick}
    (h : Ticks W a b m gone m' t) : Kin m m' := by
  cases h <;> exact ⟨rfl, rfl, rfl, rfl⟩

theorem Ticks.same {W a b : Nat} {m m' : Message} {gone : Bool} {t : Tick}
    (h : Ticks W a b m gone m' t) : m'.firstUnsent = m.firstUnsent ∧ m'.acked = m.acked := by
  cases h <;> exact ⟨rfl, rfl⟩

/-- A message that has nothing to send again sends its next chunk. -/
theorem Emits.of_lost_nil {W : Nat} {m m' : Message} {o : Outgoing} (h : Emits W m (some o) m')
    (hl : m.lost = []) : m.firstUnsent ≠ m.total ∧ o = m.chunk m.firstUnsent false := by
  cases h with
  | again i rest lost => simp [hl] at lost
  | fresh lost unsent => exact ⟨unsent, rfl⟩

theorem Emits.lost_sublist {W : Nat} {m m' : Message} {o : Option Outgoing} (h : Emits W m o m') :
    m'.lost.Sublist m.lost := by
  cases h with
  | again i rest lost =>
    exact (List.sublist_cons_self i rest).trans (lost ▸ List.dropWhile_sublist _)
  | fresh | idle => exact List.nil_sublist _

/-- A message that has sent everything and has nothing to send again is only asked. -/
theorem Emits.of_sent {W : Nat} {m m' : Message} {o : Option Outgoing} (h : Emits W m o m')
    (hl : m.lost = []) (hs : m.firstUnsent = m.total) :
    o = none ∧ m'.firstUnsent = m'.total := by
  cases h with
  | again i rest lost => simp [hl] at lost
  | fresh lost unsent => exact absurd hs unsent
  | idle => exact ⟨rfl, hs⟩

theorem Emits.stalledTicks_eq {W : Nat} {m m' : Message} {o : Option Outgoing}
    (h : Emits W m o m') : m'.stalledTicks = m.stalledTicks := by
  cases h <;> rfl

/-- With these thresholds no tick comes to send chunks again. -/
theorem Ticks.lost_eq {W a b : Nat} {m m' : Message} {t : Tick} (h : Ticks W a b m false m' t)
    (hnever : ¬ max 1 a < b) : m'.lost = m.lost := by
  cases h with
  | again kind early due => omega
  | unfinished | waits => rfl

theorem kin_of_acknowledge? {m m' : Message} {total : UInt16} {i : Nat}
    (h : m.acknowledge? total i = some m') : Kin m m' := by
  rw [(acknowledge?_eq_some_iff.mp h).2]
  exact ⟨rfl, rfl, rfl, rfl⟩

/-! ## Which chunks are unacknowledged -/

theorem contains_eq_false {t : Std.TreeSet Nat} {i : Nat} : t.contains i = false ↔ i ∉ t := by
  rw [Std.TreeSet.mem_iff_contains, Bool.not_eq_true]

theorem mem_unacked {m : Message} {i : Nat} : i ∈ m.unacked ↔ i < m.firstUnsent ∧ i ∉ m.acked := by
  simp [unacked, contains_eq_false]

theorem nodup_unacked (m : Message) : m.unacked.Nodup :=
  List.nodup_range.filter _

theorem head_not_acked {m : Message} {i : Nat} {rest : List Nat}
    (h : m.lost.dropWhile (m.acked.contains ·) = i :: rest) : i ∉ m.acked := by
  have hne : m.lost.dropWhile (m.acked.contains ·) ≠ [] := by simp [h]
  have := List.head_dropWhile_not (m.acked.contains ·) hne
  simpa [h, contains_eq_false] using this

/-- A message without acknowledgements that sends nothing has nothing to send again. -/
theorem Emits.lost_eq_nil {W : Nat} {m m' : Message} (h : Emits W m none m')
    (hacked : ∀ i, i ∉ m.acked) : m.lost = [] := by
  cases h with
  | idle lost =>
    refine List.eq_nil_iff_forall_not_mem.mpr fun i hi => hacked i ?_
    exact Std.TreeSet.mem_iff_contains.mpr (List.dropWhile_eq_nil_iff.mp lost i hi)

theorem rest_sublist {m : Message} {i : Nat} {rest : List Nat}
    (h : m.lost.dropWhile (m.acked.contains ·) = i :: rest) : (i :: rest).Sublist m.lost :=
  h ▸ List.dropWhile_sublist _

/-- After one more fresh chunk is sent it is the one more that waits for an
acknowledgement. -/
theorem length_unacked_fresh (m m' : Message) (hf : m'.firstUnsent = m.firstUnsent + 1)
    (ha : m'.acked = m.acked) (h : m.firstUnsent ∉ m.acked) :
    m'.unacked.length = m.unacked.length + 1 := by
  simp [unacked, hf, ha, List.range_succ, contains_eq_false.mpr h]

theorem unacked_insert (m m' : Message) (i : Nat) (hf : m'.firstUnsent = m.firstUnsent)
    (ha : m'.acked = m.acked.insert i) : m'.unacked = m.unacked.erase i := by
  rw [unacked, unacked, hf, ha]
  exact filter_insert m.acked i List.nodup_range

/-! ## The invariant -/

/-- What holds of every message in a queue with the flight limit `W`. -/
structure Sound (W : Nat) (m : Message) : Prop where
  firstUnsent_le : m.firstUnsent ≤ m.total
  acked_lt : ∀ i ∈ m.acked, i < m.firstUnsent
  size_acked : m.acked.size + m.unacked.length = m.firstUnsent
  not_allAcked : m.acked.size < m.total
  outstanding_eq : m.reliable = true → m.outstanding = m.unacked.length
  outstanding_le : m.reliable = true → m.outstanding ≤ W
  lost_sublist : m.lost.Sublist (List.range m.firstUnsent)
  lost_le : m.lost.length ≤ W
  acked_empty : m.reliable = false → ∀ i, i ∉ m.acked
  lost_empty : m.reliable = false → m.lost = []
  queued_le : m.reliable = false → m.queued ≤ W

namespace Sound

variable {W : Nat} {m m' : Message}

theorem lost_lt (h : m.Sound W) {i : Nat} (hi : i ∈ m.lost) : i < m.firstUnsent :=
  List.mem_range.mp (h.lost_sublist.subset hi)

theorem firstUnsent_not_mem (h : m.Sound W) : m.firstUnsent ∉ m.acked :=
  fun hc => Nat.lt_irrefl _ (h.acked_lt _ hc)

theorem emits (h : m.Sound W) {o : Option Outgoing} (he : Emits W m o m') : m'.Sound W := by
  cases he with
  | again i rest lost =>
    have hs := rest_sublist lost
    have hrest : rest.Sublist m.lost := (List.sublist_cons_self i rest).trans hs
    refine { h with
      lost_sublist := hrest.trans h.lost_sublist
      lost_le := Nat.le_trans hrest.length_le h.lost_le
      lost_empty := fun hr => ?_
      queued_le := fun hr => ?_ }
    all_goals
      -- a best-effort message has nothing to send again
      rw [h.lost_empty hr] at hs
      exact absurd hs.length_le (by simp)
  | idle =>
    exact { h with
      lost_sublist := List.nil_sublist _
      lost_le := Nat.zero_le _
      lost_empty := fun _ => rfl }
  | fresh lost unsent room =>
    have hle := h.firstUnsent_le
    have hu := length_unacked_fresh m { m with
        lost := []
        firstUnsent := m.firstUnsent + 1
        queued := m.queued + 1
        outstanding := if m.reliable then m.outstanding + 1 else m.outstanding } rfl rfl
        h.firstUnsent_not_mem
    have hsize := h.size_acked
    refine { h with
      firstUnsent_le := by show m.firstUnsent + 1 ≤ m.total; omega
      acked_lt := fun i hi => Nat.lt_succ_of_lt (h.acked_lt i hi)
      size_acked := by rw [hu]; show m.acked.size + _ = m.firstUnsent + 1; omega
      outstanding_eq := fun hr => ?_
      outstanding_le := fun hr => ?_
      lost_sublist := List.nil_sublist _
      lost_le := Nat.zero_le _
      lost_empty := fun _ => rfl
      queued_le := fun hr => ?_ }
    · have := h.outstanding_eq hr
      have hr' : m.reliable = true := hr
      rw [hu]
      simp only [hr', ↓reduceIte]
      omega
    · have hr' : m.reliable = true := hr
      simp only [hasRoom, hr', ↓reduceIte, decide_eq_true_eq] at room ⊢
      omega
    · have hr' : m.reliable = false := hr
      simp only [hasRoom, hr', Bool.false_eq_true, ↓reduceIte, decide_eq_true_eq] at room
      show m.queued + 1 ≤ W
      omega

theorem acknowledge? (h : m.Sound W) {total : UInt16} {i : Nat}
    (ha : m.acknowledge? total i = some m') (hall : m'.allAcked = false) : m'.Sound W := by
  obtain ⟨⟨hr, ht, hi, hn⟩, rfl⟩ := acknowledge?_eq_some_iff.mp ha
  have hmem : i ∈ m.unacked := mem_unacked.mpr ⟨hi, hn⟩
  have hu := unacked_insert m { m with
      acked := m.acked.insert i, outstanding := m.outstanding - 1, stalledTicks := 0 } i rfl rfl
  have hlen : (m.unacked.erase i).length = m.unacked.length - 1 := List.length_erase_of_mem hmem
  have hpos : 0 < m.unacked.length := List.length_pos_of_mem hmem
  have hsz : (m.acked.insert i).size = m.acked.size + 1 := by
    rw [Std.TreeSet.size_insert, contains_eq_false.mpr hn, if_neg (by simp)]
  have hsize := h.size_acked
  have hout := h.outstanding_eq hr
  have hle := h.outstanding_le hr
  have hnall : m.acked.size + 1 ≠ m.total := by
    simp only [allAcked, hsz, beq_eq_false_iff_ne] at hall
    exact hall
  have hlt := h.not_allAcked
  refine { h with
    acked_lt := fun j hj => ?_
    size_acked := by rw [hu, hlen]; show (m.acked.insert i).size + _ = m.firstUnsent; omega
    not_allAcked := by show (m.acked.insert i).size < m.total; omega
    outstanding_eq := fun _ => by rw [hu, hlen]; show m.outstanding - 1 = _; omega
    outstanding_le := fun _ => by show m.outstanding - 1 ≤ W; omega
    acked_empty := fun hf => absurd (hr.symm.trans hf) (by simp) }
  rcases Std.TreeSet.mem_insert.mp hj with he | hj
  · rw [← Std.compare_eq_iff_eq.mp he]
    exact hi
  · exact h.acked_lt j hj

theorem ticks (h : m.Sound W) {a b : Nat} {t : Tick} (ht : Ticks W a b m false m' t) :
    m'.Sound W := by
  cases ht with
  | unfinished => exact h
  | waits kind => exact { h with }
  | again kind =>
    exact { h with
      lost_sublist := (List.take_sublist _ _).trans List.filter_sublist
      lost_le := List.length_take_le _ _
      lost_empty := fun hf => absurd (kind.symm.trans hf) (by simp) }

theorem markWritten (h : m.Sound W) : m.markWritten.Sound W :=
  { h with queued_le := fun hr => Nat.le_trans (Nat.sub_le _ _) (h.queued_le hr) }

/-- A message that was just registered. -/
theorem registered {s : UInt64} {d : SocketAddr} {r : Bool} {pieces : Array Bytes}
    (hp : 0 < pieces.size) : Sound W { sequence := s, dest := d, reliable := r, pieces } where
  firstUnsent_le := Nat.zero_le _
  acked_lt := by simp
  size_acked := by simp [unacked]
  not_allAcked := by simpa [total] using hp
  outstanding_eq := by simp [unacked]
  outstanding_le := by simp
  lost_sublist := List.nil_sublist _
  lost_le := Nat.zero_le _
  acked_empty := by simp
  lost_empty := fun _ => rfl
  queued_le := by simp

/-- With the last acknowledgement each chunk is acknowledged. -/
theorem all_acked (h : m.Sound W) {total : UInt16} {i : Nat}
    (ha : m.acknowledge? total i = some m') (hall : m'.allAcked = true) :
    ∀ j < m.total, j = i ∨ j ∈ m.acked := by
  obtain ⟨⟨_, _, hi, hn⟩, rfl⟩ := acknowledge?_eq_some_iff.mp ha
  have hsz : m.acked.size + 1 = m.total := by
    simp only [allAcked, Std.TreeSet.size_insert, contains_eq_false.mpr hn, beq_iff_eq] at hall
    exact hall
  have hle := h.firstUnsent_le
  have hsize := h.size_acked
  have hmem : i ∈ m.unacked := mem_unacked.mpr ⟨hi, hn⟩
  have hpos := List.length_pos_of_mem hmem
  -- one chunk waits, and that is the one whose acknowledgement comes
  obtain ⟨x, hx⟩ := List.length_eq_one_iff.mp (show m.unacked.length = 1 by omega)
  rw [hx, List.mem_singleton] at hmem
  intro j hj
  by_cases hja : j ∈ m.acked
  · exact Or.inr hja
  · have : j ∈ m.unacked := mem_unacked.mpr ⟨by omega, hja⟩
    rw [hx, List.mem_singleton] at this
    exact Or.inl (this.trans hmem.symm)

end Sound

/-- A chunk that goes out is not acknowledged. It is the next one, or it is one that was sent
before. -/
theorem Emits.chunk_eq {V W : Nat} {m m' : Message} {o : Outgoing} (h : Emits V m (some o) m')
    (hs : m.Sound W) : ∃ i < m.total, o = m.chunk i o.resent ∧ i ∉ m.acked ∧
      (o.resent = false → i = m.firstUnsent) ∧
      (o.resent = true → m.reliable = true ∧ i < m.firstUnsent) := by
  have hle := hs.firstUnsent_le
  cases h with
  | again i rest lost =>
    have hmem : i ∈ m.lost := (rest_sublist lost).subset List.mem_cons_self
    have hlt := hs.lost_lt hmem
    refine ⟨i, Nat.lt_of_lt_of_le hlt hle, rfl, head_not_acked lost, nofun, fun _ => ⟨?_, hlt⟩⟩
    -- a best-effort message has nothing to send again
    by_contra hr
    rw [hs.lost_empty (Bool.eq_false_iff.mpr hr)] at hmem
    cases hmem
  | fresh lost unsent =>
    exact ⟨m.firstUnsent, Nat.lt_of_le_of_ne hle unsent, rfl, hs.firstUnsent_not_mem,
      fun _ => rfl, nofun⟩

end Courier.Outbound.Message
