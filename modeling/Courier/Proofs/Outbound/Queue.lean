import Courier.Proofs.Chunk.Split
import Courier.Proofs.Outbound.Message
import Mathlib.Data.List.Forall2
import Mathlib.Data.List.Nodup

/-!
The queue seen through the number of one message. Numbers are distinct, so each
operation is known by what it does to `find?` of every number, and the ring itself
only matters for whose turn it is.
-/

namespace Courier.Outbound.Queue

/-! ## Looking a message up by its number -/

def Distinct (l : List Message) : Prop := (l.map (·.sequence)).Nodup

theorem find?_eq_some_iff {l : List Message} (hd : Distinct l) {s : UInt64} {m : Message} :
    l.find? (·.sequence == s) = some m ↔ m ∈ l ∧ m.sequence = s := by
  constructor
  · intro h
    exact ⟨List.mem_of_find?_eq_some h, by simpa using List.find?_some h⟩
  · rintro ⟨hm, rfl⟩
    cases hf : l.find? (·.sequence == m.sequence) with
    | none => simpa using List.find?_eq_none.mp hf m hm
    | some m' =>
      have heq : m'.sequence = m.sequence := by simpa using List.find?_some hf
      rw [List.inj_on_of_nodup_map hd (List.mem_of_find?_eq_some hf) hm heq]

/-- Changing messages one by one, each keeping its number. -/
theorem find?_forall₂ {R : Message → Message → Prop} {l l' : List Message}
    (h : List.Forall₂ R l l') (hk : ∀ m m', R m m' → m'.sequence = m.sequence) (s : UInt64) :
    (l.find? (·.sequence == s) = none ∧ l'.find? (·.sequence == s) = none) ∨
      ∃ m m', l.find? (·.sequence == s) = some m ∧ l'.find? (·.sequence == s) = some m' ∧
        R m m' := by
  induction h with
  | nil => exact Or.inl ⟨rfl, rfl⟩
  | @cons m m' l l' hr _ ih =>
    have hs := hk m m' hr
    by_cases he : m.sequence = s
    · exact Or.inr ⟨m, m', by simp [he], by simp [hs, he], hr⟩
    · simpa [hs, he] using ih

theorem map_sequence_forall₂ {R : Message → Message → Prop} {l l' : List Message}
    (h : List.Forall₂ R l l') (hk : ∀ m m', R m m' → m'.sequence = m.sequence) :
    l'.map (·.sequence) = l.map (·.sequence) := by
  induction h with
  | nil => rfl
  | cons hr _ ih => rw [List.map_cons, List.map_cons, ih, hk _ _ hr]

/-- Keeping the messages whose numbers pass a test. -/
theorem find?_filter_sequence (l : List Message) (keep : UInt64 → Bool) (s : UInt64) :
    (l.filter (keep ·.sequence)).find? (·.sequence == s) =
      if keep s then l.find? (·.sequence == s) else none := by
  rw [List.find?_filter]
  by_cases hk : keep s = true
  · rw [if_pos hk]
    congr 1
    funext m
    by_cases hm : m.sequence = s <;> simp [hm, hk]
  · rw [if_neg hk]
    apply List.find?_eq_none.mpr
    intro m _
    by_cases hm : m.sequence = s <;> simp [hm, hk]

theorem distinct_filter {l : List Message} (hd : Distinct l) (p : Message → Bool) :
    Distinct (l.filter p) :=
  List.Nodup.sublist (List.filter_sublist.map _) hd

/-! ## The invariant -/

structure Sound (q : Queue) : Prop where
  distinct : Distinct q.ring
  below : ∀ m ∈ q.ring, m.sequence.toNat < q.nextNumber.toNat
  messages : ∀ m ∈ q.ring, m.Sound q.maxFlight

theorem Sound.find?_iff {q : Queue} (h : q.Sound) {s : UInt64} {m : Message} :
    q.find? s = some m ↔ m ∈ q.ring ∧ m.sequence = s :=
  find?_eq_some_iff h.distinct

theorem Sound.message {q : Queue} (h : q.Sound) {s : UInt64} {m : Message}
    (hm : q.find? s = some m) : m.Sound q.maxFlight :=
  h.messages m (h.find?_iff.mp hm).1

theorem Sound.sequence {q : Queue} {s : UInt64} {m : Message} (hm : q.find? s = some m) :
    m.sequence = s := by
  simpa using List.find?_some hm

theorem Sound.lt_next {q : Queue} (h : q.Sound) {s : UInt64} {m : Message}
    (hm : q.find? s = some m) : s.toNat < q.nextNumber.toNat := by
  obtain ⟨hmem, rfl⟩ := h.find?_iff.mp hm
  exact h.below m hmem

/-- A queue with the same numbers, all of whose messages are sound. -/
theorem Sound.of_forall₂ {R : Message → Message → Prop} {q q' : Queue} (h : q.Sound)
    (hr : List.Forall₂ R q.ring q'.ring) (hk : ∀ m m', R m m' → m'.sequence = m.sequence)
    (hm : ∀ m m', m.Sound q.maxFlight → R m m' → m'.Sound q.maxFlight)
    (hn : q'.nextNumber = q.nextNumber) (hw : q'.maxFlight = q.maxFlight) : q'.Sound := by
  have hmap := map_sequence_forall₂ hr hk
  refine ⟨?_, ?_, ?_⟩
  · show (q'.ring.map _).Nodup
    rw [hmap]
    exact h.distinct
  · intro m' hm'
    have : m'.sequence ∈ q.ring.map (·.sequence) := hmap ▸ List.mem_map_of_mem hm'
    obtain ⟨m, hmem, he⟩ := List.mem_map.mp this
    rw [hn, ← he]
    exact h.below m hmem
  · intro m' hm'
    obtain ⟨i, hi, rfl⟩ := List.getElem_of_mem hm'
    have hi' : i < q.ring.length := hr.length_eq ▸ hi
    rw [hw]
    exact hm _ _ (h.messages _ (List.getElem_mem hi')) (List.forall₂_iff_get.mp hr |>.2 i hi' hi)

theorem Sound.of_filter {q q' : Queue} (h : q.Sound) (p : Message → Bool)
    (hr : q'.ring = q.ring.filter p) (hn : q'.nextNumber = q.nextNumber)
    (hw : q'.maxFlight = q.maxFlight) : q'.Sound := by
  refine ⟨hr ▸ distinct_filter h.distinct p, ?_, ?_⟩
  · intro m hm
    rw [hr] at hm
    rw [hn]
    exact h.below m (List.mem_of_mem_filter hm)
  · intro m hm
    rw [hr] at hm
    rw [hw]
    exact h.messages m (List.mem_of_mem_filter hm)

/-! ## Taking a message in -/

theorem register_eq_ok_iff {q q' : Queue} {dest : SocketAddr} {data : Bytes} {reliable : Bool}
    {s : UInt64} :
    q.register dest data reliable = .ok (s, q') ↔
      s = q.nextNumber ∧ q.nextNumber.toNat ≠ wordMax ∧ data ≠ [] ∧
        data.length ≤ Chunk.maxCount * q.chunkSize ∧ Chunk.maxCount * q.chunkSize ≤ wordMax ∧
        ∃ pieces, Chunk.split? data q.chunkSize = some pieces ∧
          q' = { q with
            nextNumber := q.nextNumber + 1
            ring := q.ring ++ [{ sequence := q.nextNumber, dest, reliable, pieces }] } := by
  unfold register maxMessageSize?
  constructor
  · intro h
    split at h
    · cases h
    · rename_i hdata
      by_cases hw : Chunk.maxCount * q.chunkSize ≤ wordMax
      · simp only [if_pos hw] at h
        split at h
        · cases h
        · split at h
          · cases h
          · cases hs : Chunk.split? data q.chunkSize with
            | none => simp [hs] at h
            | some pieces =>
              simp only [hs, Except.ok.injEq, Prod.mk.injEq] at h
              exact ⟨h.1.symm, ‹_›, hdata, by omega, hw, pieces, rfl, h.2.symm⟩
      · simp [hw] at h
  · rintro ⟨rfl, hn, hd, hl, hw, pieces, hs, rfl⟩
    simp only [if_neg hd, if_pos hw, if_neg (Nat.not_lt.mpr hl), if_neg hn, hs]

/-- A message is taken in if it is neither empty nor too large and a number is left. -/
theorem exists_register_eq_ok_iff (q : Queue) (dest : SocketAddr) (data : Bytes) (reliable : Bool) :
    (∃ n q', q.register dest data reliable = .ok (n, q')) ↔
      data ≠ [] ∧ data.length ≤ Chunk.maxCount * q.chunkSize ∧
        Chunk.maxCount * q.chunkSize ≤ wordMax ∧ q.nextNumber.toNat ≠ wordMax := by
  constructor
  · rintro ⟨n, q', hr⟩
    obtain ⟨_, hlast, hdata, hlength, hword, _⟩ := register_eq_ok_iff.mp hr
    exact ⟨hdata, hlength, hword, hlast⟩
  · rintro ⟨hdata, hlength, hword, hlast⟩
    have hsize : q.chunkSize ≠ 0 := by
      intro h0
      rw [h0, Nat.mul_zero] at hlength
      exact hdata (List.length_eq_zero_iff.mp (Nat.le_zero.mp hlength))
    obtain ⟨pieces, hsplit⟩ := Chunk.exists_split? (Nat.pos_of_ne_zero hsize) data
    exact ⟨_, _, register_eq_ok_iff.mpr
      ⟨rfl, hlast, hdata, hlength, hword, pieces, hsplit, rfl⟩⟩

/-- Numbers are given in ascending order. -/
theorem toNat_succ {s : UInt64} (h : s.toNat ≠ wordMax) : (s + 1).toNat = s.toNat + 1 := by
  have := s.toNat_lt
  rw [UInt64.toNat_add, UInt64.toNat_one, Nat.mod_eq_of_lt]
  unfold wordMax at h
  omega

theorem find?_register {q q' : Queue} (h : q.Sound) {dest : SocketAddr} {data : Bytes}
    {reliable : Bool} {s : UInt64} (hr : q.register dest data reliable = .ok (s, q')) (t : UInt64) :
    q.find? s = none ∧ ∃ pieces, Chunk.split? data q.chunkSize = some pieces ∧
      q'.find? t = if t = s then some { sequence := s, dest, reliable, pieces } else q.find? t := by
  obtain ⟨rfl, _, _, _, _, pieces, hs, rfl⟩ := register_eq_ok_iff.mp hr
  have hnone : q.find? q.nextNumber = none := by
    cases hf : q.find? q.nextNumber with
    | none => rfl
    | some m => exact absurd (h.lt_next hf) (Nat.lt_irrefl _)
  refine ⟨hnone, pieces, hs, ?_⟩
  simp only [find?, List.find?_append]
  by_cases ht : t = q.nextNumber
  · subst ht
    rw [show List.find? _ _ = none from hnone]
    simp
  · cases hf : q.ring.find? (·.sequence == t) <;> simp [ht, Ne.symm ht]

/-- A registration takes the next number and leaves the one after it. -/
theorem register_fields {q q' : Queue} {dest : SocketAddr} {data : Bytes} {reliable : Bool}
    {s : UInt64} (hr : q.register dest data reliable = .ok (s, q')) :
    s = q.nextNumber ∧ q'.nextNumber.toNat = s.toNat + 1 ∧ q'.chunkSize = q.chunkSize ∧
      q'.maxFlight = q.maxFlight := by
  obtain ⟨rfl, hn, _, _, _, pieces, _, rfl⟩ := register_eq_ok_iff.mp hr
  exact ⟨rfl, toNat_succ hn, rfl, rfl⟩

/-- After a registration a message is the new one or was there before. -/
theorem message_of_register {q q' : Queue} (h : q.Sound) {dest : SocketAddr} {data : Bytes}
    {reliable : Bool} {s : UInt64} (hr : q.register dest data reliable = .ok (s, q')) {t : UInt64}
    {m : Message} (hm : q'.find? t = some m) :
    (t = s ∧ ∃ pieces, Chunk.split? data q.chunkSize = some pieces ∧
      m = { sequence := s, dest, reliable, pieces }) ∨ t ≠ s ∧ q.find? t = some m := by
  obtain ⟨_, pieces, hs, hfind⟩ := find?_register h hr t
  rw [hfind] at hm
  by_cases ht : t = s
  · rw [if_pos ht] at hm
    exact Or.inl ⟨ht, pieces, hs, (Option.some.inj hm).symm⟩
  · rw [if_neg ht] at hm
    exact Or.inr ⟨ht, hm⟩

theorem Sound.register {q q' : Queue} (h : q.Sound) {dest : SocketAddr} {data : Bytes}
    {reliable : Bool} {s : UInt64} (hr : q.register dest data reliable = .ok (s, q')) :
    q'.Sound := by
  obtain ⟨rfl, hn, hd, _, _, pieces, hs, rfl⟩ := register_eq_ok_iff.mp hr
  have hpos := (Chunk.Cut.of_split? hs).size_pos hd
  have hsucc := toNat_succ hn
  refine ⟨?_, ?_, ?_⟩
  · show ((q.ring ++ [_]).map _).Nodup
    rw [List.map_append, List.nodup_append]
    refine ⟨h.distinct, by simp, ?_⟩
    intro a ha b hb
    obtain ⟨m, hm, rfl⟩ := List.mem_map.mp ha
    have hlt := h.below m hm
    simp only [List.map_cons, List.map_nil, List.mem_singleton] at hb
    rintro rfl
    rw [hb] at hlt
    exact Nat.lt_irrefl _ hlt
  · intro m hm
    show m.sequence.toNat < (q.nextNumber + 1).toNat
    rcases List.mem_append.mp hm with hm | hm
    · have := h.below m hm
      omega
    · rw [List.mem_singleton.mp hm]
      show q.nextNumber.toNat < _
      omega
  · intro m hm
    rcases List.mem_append.mp hm with hm | hm
    · exact h.messages m hm
    · rw [List.mem_singleton.mp hm]
      exact .registered hpos

/-! ## The next chunk -/

/-- What a look for the next chunk does to one message, where `out` is the chunk found:
the message was not asked, or it was asked and gave what of `out` is its own. -/
def Asked (W : Nat) (out : Option Outgoing) (m m' : Message) : Prop :=
  m' = m ∧ out.filter (·.header.sequence == m.sequence) = none ∨
    Message.Emits W m (out.filter (·.header.sequence == m.sequence)) m'

theorem Asked.kin {W : Nat} {out : Option Outgoing} {m m' : Message} (h : Asked W out m m') :
    Message.Kin m m' := by
  rcases h with ⟨rfl, _⟩ | h
  · exact .refl _
  · exact h.kin

/-- A message counts the part of what was sent that is its own. -/
theorem Asked.counts {W : Nat} {out : Option Outgoing} {m m' : Message} (h : Asked W out m m') :
    m'.queued = m.queued + out.toList.countP (·.header.sequence == m.sequence) := by
  have hlength : (out.filter (·.header.sequence == m.sequence)).toList.length =
      out.toList.countP (·.header.sequence == m.sequence) := by
    cases out with
    | none => rfl
    | some o => by_cases ho : o.header.sequence = m.sequence <;> simp [Option.filter_some, ho]
  rcases h with ⟨rfl, hnone⟩ | he
  · rw [← hlength, hnone]
    rfl
  · rw [← hlength]
    exact he.counts

theorem emits_sequence {W : Nat} {m m' : Message} {o : Outgoing}
    (h : Message.Emits W m (some o) m') : o.header.sequence = m.sequence := by
  cases h <;> rfl

theorem emitFirst_cons_some {W : Nat} {m : Message} {c : Outgoing} (l : List Message)
    (h : (m.emit W).1 = some c) : emitFirst W (m :: l) = (some c, (m.emit W).2 :: l, 1) := by
  rw [emitFirst, show m.emit W = (some c, (m.emit W).2) from Prod.ext h rfl]

theorem emitFirst_cons_none {W : Nat} {m : Message} (l : List Message) (h : (m.emit W).1 = none) :
    emitFirst W (m :: l) =
      ((emitFirst W l).1, (m.emit W).2 :: (emitFirst W l).2.1, (emitFirst W l).2.2 + 1) := by
  rw [emitFirst, show m.emit W = (none, (m.emit W).2) from Prod.ext h rfl]

/-- A chunk comes from one of the messages asked. -/
theorem emitFirst_mem (W : Nat) (l : List Message) {o : Outgoing}
    (h : (emitFirst W l).1 = some o) : o.header.sequence ∈ l.map (·.sequence) := by
  induction l with
  | nil => simp [emitFirst] at h
  | cons m l ih =>
    cases ho : (m.emit W).1 with
    | none =>
      rw [emitFirst_cons_none l ho] at h
      exact List.mem_cons_of_mem _ (ih h)
    | some c =>
      rw [emitFirst_cons_some l ho] at h
      cases h
      rw [emits_sequence (Message.emits_of_fst ho)]
      exact List.mem_cons_self

theorem filter_none_of_notMem {l : List Message} {out : Option Outgoing} {m : Message}
    (ho : ∀ o, out = some o → o.header.sequence ∈ l.map (·.sequence))
    (hm : m.sequence ∉ l.map (·.sequence)) :
    out.filter (·.header.sequence == m.sequence) = none := by
  cases out with
  | none => rfl
  | some o =>
    have : o.header.sequence ≠ m.sequence := fun he => hm (he ▸ ho o rfl)
    simp [this]

/-- Messages apart from those that were asked. -/
theorem forall₂_unasked {W : Nat} {l k : List Message} {out : Option Outgoing}
    (ho : ∀ o, out = some o → o.header.sequence ∈ k.map (·.sequence))
    (hdisj : ∀ m ∈ l, m.sequence ∉ k.map (·.sequence)) :
    List.Forall₂ (Asked W out) l l :=
  List.forall₂_same.mpr fun m hm => Or.inl ⟨rfl, filter_none_of_notMem ho (hdisj m hm)⟩

theorem forall₂_emitFirst (W : Nat) {l : List Message} (hd : Distinct l) :
    List.Forall₂ (Asked W (emitFirst W l).1) l (emitFirst W l).2.1 := by
  induction l with
  | nil => exact .nil
  | cons m l ih =>
    obtain ⟨hnot, hd'⟩ := List.nodup_cons.mp hd
    cases ho : (m.emit W).1 with
    | none =>
      have he := Message.emits_of_fst ho
      rw [emitFirst_cons_none l ho]
      have hout := filter_none_of_notMem (fun o h => emitFirst_mem W l h) hnot
      exact .cons (Or.inr (by rw [hout]; exact he)) (ih hd')
    | some c =>
      have he := Message.emits_of_fst ho
      rw [emitFirst_cons_some l ho]
      have hc := emits_sequence he
      refine .cons (Or.inr (by rw [Option.filter_some, if_pos (by simp [hc])]; exact he)) ?_
      refine forall₂_unasked (k := [m]) (fun o h => by cases h; simp [hc]) ?_
      intro x hx hxm
      have hs : x.sequence = m.sequence := by simpa using hxm
      apply hnot
      show m.sequence ∈ _
      rw [← hs]
      exact List.mem_map_of_mem hx

/-- Without a chunk, no message has one. -/
theorem emitFirst_none {W : Nat} {l : List Message} (h : (emitFirst W l).1 = none) :
    ∀ m ∈ l, (m.emit W).1 = none := by
  induction l with
  | nil => simp
  | cons m l ih =>
    cases ho : (m.emit W).1 with
    | some c =>
      rw [emitFirst_cons_some l ho] at h
      cases h
    | none =>
      rw [emitFirst_cons_none l ho] at h
      intro x hx
      rcases List.mem_cons.mp hx with rfl | hx
      · exact ho
      · exact ih h x hx

theorem next_fields (q : Queue) :
    q.next.2.chunkSize = q.chunkSize ∧ q.next.2.maxFlight = q.maxFlight ∧
      q.next.2.nextNumber = q.nextNumber := by
  unfold next
  dsimp only
  split <;> exact ⟨rfl, rfl, rfl⟩

/-- The ring is asked from some place on, and up to that place only if that was in
vain. -/
theorem next_cases (q : Queue) : ∃ early late, early ++ late = q.ring ∧
    ((∃ chunk, (emitFirst q.maxFlight late).1 = some chunk ∧ q.next.1 = some chunk ∧
        q.next.2.ring = early ++ (emitFirst q.maxFlight late).2.1) ∨
      ((emitFirst q.maxFlight late).1 = none ∧ q.next.1 = (emitFirst q.maxFlight early).1 ∧
        q.next.2.ring =
          (emitFirst q.maxFlight early).2.1 ++ (emitFirst q.maxFlight late).2.1)) := by
  refine ⟨_, _, List.take_append_drop (if q.cursor < q.ring.length then q.cursor else 0) q.ring, ?_⟩
  unfold next
  dsimp only
  generalize (if q.cursor < q.ring.length then q.cursor else 0) = place
  cases ho : (emitFirst q.maxFlight (q.ring.drop place)).1 with
  | some chunk =>
    rw [show emitFirst q.maxFlight (q.ring.drop place) = (some chunk, _, _) from Prod.ext ho rfl]
    exact Or.inl ⟨chunk, rfl, rfl, rfl⟩
  | none =>
    rw [show emitFirst q.maxFlight (q.ring.drop place) = (none, _, _) from Prod.ext ho rfl]
    exact Or.inr ⟨rfl, rfl, rfl⟩

theorem forall₂_next {q : Queue} (hd : Distinct q.ring) :
    List.Forall₂ (Asked q.maxFlight q.next.1) q.ring q.next.2.ring := by
  obtain ⟨early, late, hsplit, hnext⟩ := next_cases q
  have hd' := hd
  rw [← hsplit] at hd'
  unfold Distinct at hd'
  rw [List.map_append, List.nodup_append] at hd'
  obtain ⟨hde, hdl, hdisj⟩ := hd'
  rw [← hsplit]
  rcases hnext with ⟨chunk, hchunk, hout, hring⟩ | ⟨hnone, hout, hring⟩ <;> rw [hout, hring]
  · -- found from the place on: the messages before it were not asked
    rw [← hchunk]
    refine List.rel_append (forall₂_unasked (k := late) (fun o => emitFirst_mem _ late) ?_)
      (forall₂_emitFirst _ hdl)
    exact fun m hm hk => hdisj _ (List.mem_map_of_mem hm) _ hk rfl
  · -- all from the place on were asked in vain, then those before it
    refine List.rel_append (forall₂_emitFirst _ hde) ?_
    have hvain : List.Forall₂ (fun m m' => m ∈ late ∧ Asked q.maxFlight none m m') late
        (emitFirst q.maxFlight late).2.1 :=
      (List.forall₂_and_left late _).mpr ⟨fun _ h => h, hnone ▸ forall₂_emitFirst _ hdl⟩
    refine hvain.imp fun m m' ⟨hm, h⟩ => ?_
    have hmine : (emitFirst q.maxFlight early).1.filter (·.header.sequence == m.sequence) = none :=
      filter_none_of_notMem (fun o => emitFirst_mem _ early)
        fun hk => hdisj _ hk _ (List.mem_map_of_mem hm) rfl
    rcases h with ⟨rfl, _⟩ | h
    · exact Or.inl ⟨rfl, hmine⟩
    · exact Or.inr (hmine ▸ h)

theorem emit_none_of_next {q : Queue} (h : q.next.1 = none) :
    ∀ m ∈ q.ring, (m.emit q.maxFlight).1 = none := by
  obtain ⟨early, late, hsplit, ⟨chunk, _, hout, _⟩ | ⟨hnone, hout, _⟩⟩ := next_cases q
  · rw [hout] at h
    cases h
  · intro m hm
    rw [← hsplit] at hm
    rcases List.mem_append.mp hm with hm | hm
    · exact emitFirst_none (hout ▸ h) m hm
    · exact emitFirst_none hnone m hm

/-- The next chunk, seen through one number. -/
theorem find?_next {q : Queue} (h : q.Sound) (s : UInt64) :
    (q.find? s = none ∧ q.next.2.find? s = none) ∨
      ∃ m m', q.find? s = some m ∧ q.next.2.find? s = some m' ∧
        Asked q.maxFlight q.next.1 m m' :=
  find?_forall₂ (forall₂_next h.distinct) (fun _ _ hr => hr.kin.sequence) s

theorem message_of_next {q : Queue} (h : q.Sound) {s : UInt64} {m' : Message}
    (hm' : q.next.2.find? s = some m') :
    ∃ m, q.find? s = some m ∧ Asked q.maxFlight q.next.1 m m' := by
  rcases find?_next h s with ⟨_, hnone⟩ | ⟨m, m'', hm, hm'', ha⟩
  · cases hnone.symm.trans hm'
  · cases hm''.symm.trans hm'
    exact ⟨m, hm, ha⟩

theorem Sound.next {q : Queue} (h : q.Sound) : q.next.2.Sound := by
  obtain ⟨_, hw, hn⟩ := next_fields q
  refine h.of_forall₂ (forall₂_next h.distinct) (fun _ _ hr => hr.kin.sequence) ?_ hn hw
  intro m m' hm hr
  rcases hr with ⟨rfl, _⟩ | he
  · exact hm
  · exact hm.emits he

/-- A chunk found is the next one of the message whose number it carries. -/
theorem emits_of_next {q : Queue} (h : q.Sound) {o : Outgoing} (ho : q.next.1 = some o) :
    ∃ m m', q.find? o.header.sequence = some m ∧ q.next.2.find? o.header.sequence = some m' ∧
      Message.Emits q.maxFlight m (some o) m' := by
  obtain ⟨early, late, hsplit, hnext⟩ := next_cases q
  have hmem : o.header.sequence ∈ q.ring.map (·.sequence) := by
    rw [← hsplit, List.map_append, List.mem_append]
    rcases hnext with ⟨chunk, hc, hout, _⟩ | ⟨_, hout, _⟩
    · exact Or.inr (emitFirst_mem _ _ (hc.trans (hout.symm.trans ho)))
    · exact Or.inl (emitFirst_mem _ _ (hout.symm.trans ho))
  obtain ⟨x, hx, hxs⟩ := List.mem_map.mp hmem
  have hfind : q.find? o.header.sequence = some x := h.find?_iff.mpr ⟨hx, hxs⟩
  rcases find?_next h o.header.sequence with ⟨hnone, _⟩ | ⟨m, m', hm, hm', ha⟩
  · rw [hnone] at hfind
    cases hfind
  · refine ⟨m, m', hm, hm', ?_⟩
    have hs := Sound.sequence hm
    have hmine : q.next.1.filter (·.header.sequence == m.sequence) = some o := by simp [ho, hs]
    rcases ha with ⟨_, hn⟩ | he
    · rw [hmine] at hn
      cases hn
    · exact hmine ▸ he

end Courier.Outbound.Queue
