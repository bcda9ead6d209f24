import Courier.Proofs.Timed.Steps

/-!
Chunks that are sent only once: those of best-effort messages, and all of them if messages
are given up before a tick comes to send chunks again.
-/

namespace Courier

/-- Some tick sends the chunks of a message again before the message is given up. -/
def Config.Resends (c : Config) : Prop := max 1 c.resendTickThreshold < c.resendThreshold

namespace Timed

open Outbound Reassembly

/-- No tick sends the chunk again. -/
def Unrepeated (s : Setup) (o : Outgoing) : Prop := o.header.kind ≠ .data ∨ ¬ s.config.Resends

/-- The same chunk twice, which no tick sends again. -/
structure Doubled (s : Setup) (o o' : Outgoing) : Prop where
  unrepeated : Unrepeated s o
  unrepeated' : Unrepeated s o'
  sequence : o.header.sequence = o'.header.sequence
  index : o.header.index = o'.header.index

theorem Doubled.symm {s : Setup} {o o' : Outgoing} (h : Doubled s o o') : Doubled s o' o :=
  ⟨h.2, h.1, h.3.symm, h.4.symm⟩

structure Single (s : Setup) (t : Timed) : Prop where
  lost : ¬ s.config.Resends → ∀ n m, t.queue.find? n = some m → m.lost = []
  apart : t.flying.Pairwise fun o o' => ¬ Doubled s o o'
  fresh : ∀ o ∈ t.flying, Unrepeated s o →
    ¬ Link.Came o.header.sequence o.header.index.toNat t.link.log

theorem single_init (s : Setup) : Single s (init s) where
  lost := by simp [init, queue, Link.init, Datagram.Channel.ofConfig, Queue.find?]
  apart := .nil
  fresh := by simp [init]

section

variable {s : Setup} {t t' : Timed}

theorem Single.lost_step (h : Single s t) (hs : Sound s t) (hst : Steps s t t')
    (hr : ¬ s.config.Resends) {n : UInt64} {m' : Message} (hm' : t'.queue.find? n = some m') :
    m'.lost = [] := by
  cases hst.fate hs hm' with
  | entered _ _ _ lost => exact lost
  | stayed found => exact h.lost hr n m' found
  | emitted m found out emits =>
    exact List.sublist_nil.mp (h.lost hr n m found ▸ emits.lost_sublist)
  | written m found written =>
    rw [written]
    exact h.lost hr n m found
  | acknowledged m found ack _ _ _ taken =>
    rw [(Message.acknowledge?_eq_some_iff.mp taken).2]
    exact h.lost hr n m found
  | ticked m found tick ticks =>
    rw [ticks.lost_eq hr]
    exact h.lost hr n m found

/-- A chunk that is sent only once is the next one of its message. -/
theorem Single.next (h : Single s t) (hs : Sound s t) {o : Outgoing} {m m' : Message}
    (hm : t.queue.find? o.header.sequence = some m)
    (he : Message.Emits s.config.maxFlight m (some o) m') (hu : Unrepeated s o) :
    o.header.index.toNat = m.firstUnsent := by
  have hsound := hs.queue.message hm
  have hlost : m.lost = [] := by
    rcases hu with hk | hr
    · apply hsound.lost_empty
      by_contra hrel
      have hkind : o.header.kind = m.kind := by cases he <;> rfl
      rw [hkind, Message.kind, if_pos (by simpa using hrel)] at hk
      exact hk rfl
    · exact h.lost hr _ m hm
  obtain ⟨hne, rfl⟩ := he.of_lost_nil hlost
  obtain ⟨_, _, hcut⟩ := hs.near.origin _ m hm
  have := hsound.firstUnsent_le
  exact hcut.toNat_index (by omega)

/-- Chunks of one message agree on whether they are sent again. -/
theorem Sound.unrepeated_of_same (hs : Sound s t) {o o' : Outgoing} (ho : o ∈ t.flying)
    (ho' : o' ∈ t.flying) (hseq : o.header.sequence = o'.header.sequence)
    (hu : Unrepeated s o) : Unrepeated s o' := by
  have := (hs.near.same_header (hs.near.genuine o (hs.flying ho))
    (hs.near.genuine o' (hs.flying ho')) hseq).1
  unfold Unrepeated at hu ⊢
  rwa [← this]

theorem Single.apart_step (h : Single s t) (hs : Sound s t) (hst : Steps s t t') :
    t'.flying.Pairwise fun o o' => ¬ Doubled s o o' := by
  cases hst with
  | picked =>
    refine List.pairwise_append.mpr ⟨h.apart, ?_, fun o ho o' ho' hd => ?_⟩
    · cases t.queue.next.1 <;> simp
    · -- what is on the network was sent before the next chunk
      obtain ⟨m, m', hm, _, he⟩ :=
        Queue.emits_of_next hs.queue (Option.mem_toList.mp ho')
      rw [hs.flight] at he
      have hnext := h.next hs hm he hd.unrepeated'
      have := hs.near.emitted o (hs.flying ho) m (hd.sequence ▸ hm)
      rw [hd.index, hnext] at this
      exact Nat.lt_irrefl _ this
  | arrived place | lost place => exact h.apart.sublist (List.eraseIdx_sublist _ _)
  | _ => exact h.apart

theorem Single.fresh_step (h : Single s t) (hs : Sound s t) (hst : Steps s t t') {o : Outgoing}
    (ho : o ∈ t'.flying) (hu : Unrepeated s o) :
    ¬ Link.Came o.header.sequence o.header.index.toNat t'.link.log := by
  intro hc
  rcases hst.came hc with hc | ⟨place, o₁, hfound, hflying, hseq, hindex⟩
  · rcases hst.flying hs ho with ho | ⟨m, m', hm, _, he⟩
    · exact h.fresh o ho hu hc
    · -- what came was sent before the next chunk
      have := hs.near.lt_of_came hm hc
      rw [h.next hs hm he hu] at this
      exact Nat.lt_irrefl _ this
  · -- what arrives is no longer on the network
    rw [hflying] at ho
    have ho' : o ∈ t.flying := List.eraseIdx_subset ho
    have hpair := (perm_eraseIdx hfound).pairwise h.apart fun hd hd' => hd hd'.symm
    have hu₁ := hs.unrepeated_of_same ho' (List.mem_of_getElem? hfound) hseq.symm hu
    exact (List.pairwise_cons.mp hpair).1 o ho ⟨hu₁, hu, hseq, UInt16.toNat_inj.mp hindex⟩

theorem Single.step (h : Single s t) (hs : Sound s t) (hst : Steps s t t') : Single s t' where
  lost := fun hr _ _ hm' => h.lost_step hs hst hr hm'
  apart := h.apart_step hs hst
  fresh := fun _ ho hu => h.fresh_step hs hst ho hu

end

end Timed

end Courier
