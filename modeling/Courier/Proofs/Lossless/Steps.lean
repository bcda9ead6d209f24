import Courier.Proofs.Lossless.Run

/-!
Every step over a network without loss, and what holds of the network and of the log in
every run.
-/

namespace Courier.Lossless

open Outbound Reassembly

/-- Everything that a step can do, given that the network holds nothing but chunks of
registered messages and acknowledgements of them. -/
inductive Steps (s : Setup) (t : Lossless) : Lossless → Prop
  | idle : Steps s t t
  | registered (data : Bytes) (reliable : Bool) (n : UInt64) (q : Queue)
      (fits : data.length ≤ sizeMax)
      (ok : t.queue.register s.there data reliable = .ok (n, q)) :
      Steps s t { t with
        link := { t.link.withQueue q with
          log := .registered n s.there data reliable :: t.link.log } }
  | picked : Steps s t { t with
      link := { t.link.withQueue t.queue.next.2 with
        sent := t.link.sent ++ t.queue.next.1.toList }
      unwritten := t.unwritten ++ t.queue.next.1.toList.map (·.header.sequence)
      flying := t.flying ++ t.queue.next.1.toList }
  | written (place : Nat) (n : UInt64) (found : t.unwritten[place]? = some n) :
      Steps s t { t with
        link := t.link.withQueue (t.queue.markWritten n)
        unwritten := t.unwritten.eraseIdx place }
  | arrived (place : Nat) (o : Outgoing) (now : Instant) (found : t.flying[place]? = some o) :
      Steps s t { t with
        link := t.link.received s.toSetup o now
        flying := t.flying.eraseIdx place
        replies := t.replies ++ (Link.reply o).toList }
  | acknowledged (place : Nat) (ack : Chunk.Header)
      (found : t.replies[place]? = some (Chunk.packet ack [])) (valid : ack.Valid) :
      Steps s t { t with
        link := t.link.acked (t.queue.acknowledge ack).2
        replies := t.replies.eraseIdx place }

structure Sound (s : Setup) (t : Lossless) : Prop where
  near : Link.Near s.toSetup t.link
  far : Link.Far s.toSetup t.link
  flying : t.flying ⊆ t.link.sent
  replies : t.replies ⊆ t.link.acks
  unwritten : t.unwritten ⊆ t.link.sent.map (·.header.sequence)
  /-- all messages are for the receiver, are not empty and fit the machine -/
  registered : ∀ n dest data r, .registered n dest data r ∈ t.link.log →
    dest = s.there ∧ 0 < data.length ∧ data.length ≤ sizeMax

theorem Sound.queue {s : Setup} {t : Lossless} (h : Sound s t) : t.queue.Sound := h.near.queue

theorem sound_init (s : Setup) : Sound s (init s) where
  near := Link.near_init s.toSetup
  far := Link.far_init s.toSetup
  flying := List.nil_subset _
  replies := List.nil_subset _
  unwritten := List.nil_subset _
  registered := by simp [init, Link.init]

section

variable {s : Setup} {t t' : Lossless}

theorem Sound.steps (h : Sound s t) (e : Event) : Steps s t (step s t e) := by
  cases e with
  | register data fits reliable =>
    have hlink := h.near.steps (.register s.there data reliable)
    show Steps s t { t with link := t.link.step s.toSetup (.register s.there data reliable) }
    generalize t.link.step s.toSetup (.register s.there data reliable) = link at hlink ⊢
    cases hlink with
    | idle => exact .idle
    | registered _ _ _ n q ok => exact .registered data reliable n q fits ok
  | pick => exact .picked
  | written place =>
    cases hn : t.unwritten[place]? with
    | none =>
      simp only [step, hn]
      exact .idle
    | some n =>
      simp only [step, hn]
      exact .written place n hn
  | arrive place now =>
    cases ho : t.flying[place]? with
    | none =>
      simp only [step, ho]
      exact .idle
    | some o =>
      have hgen := h.near.genuine o (h.flying (List.mem_of_getElem? ho))
      have hacks : (t.link.received s.toSetup o now).acks.drop t.link.acks.length =
          (Link.reply o).toList := List.drop_left
      simp only [step, ho, Link.arrive_eq hgen, hacks]
      exact .arrived place o now ho
  | acknowledge place now =>
    cases hb : t.replies[place]? with
    | none =>
      simp only [step, hb]
      exact .idle
    | some b =>
      obtain ⟨ack, hv, rfl, heq⟩ :=
        Link.acknowledge_eq (h.near.reply b (h.replies (List.mem_of_getElem? hb))) now
      simp only [step, hb, heq]
      exact .acknowledged place ack hb hv

/-- A chunk that was sent was sent to the receiver. -/
theorem Sound.dest_eq (h : Sound s t) {o : Outgoing} (ho : o ∈ t.link.sent) :
    o.dest = s.there := by
  obtain ⟨m, i, _, ⟨data, hreg, _⟩, _, rfl⟩ := h.near.genuine o ho
  exact (h.registered _ _ _ _ hreg).1

/-- A number under which a chunk came is not given again. -/
theorem Sound.not_entered (h : Sound s t) {n : UInt64} {i : Nat}
    (hc : Link.Came n i t.link.log) : n ≠ t.queue.nextNumber := by
  rintro rfl
  exact Nat.lt_irrefl _ (h.near.lt_next_of_came hc)

/-- What happens to the link is a step of the link. -/
theorem Steps.link (hst : Steps s t t') (h : Sound s t) :
    ∃ e, Link.Steps s.toSetup t.link e t'.link := by
  cases hst with
  | idle => exact ⟨.pick, .idle _⟩
  | registered data reliable n q fits ok => exact ⟨_, .registered s.there data reliable n q ok⟩
  | picked => exact ⟨_, .picked⟩
  | written place n => exact ⟨_, .written n⟩
  | arrived place o now found =>
    have ho := h.flying (List.mem_of_getElem? found)
    obtain ⟨i, hi⟩ := List.mem_iff_getElem?.mp ho
    exact ⟨_, .arrived i o now hi (h.dest_eq ho) (h.near.valid ho)⟩
  | acknowledged place ack found valid =>
    obtain ⟨i, hi⟩ := List.mem_iff_getElem?.mp (h.replies (List.mem_of_getElem? found))
    exact ⟨_, .acknowledged i ack 0 hi valid⟩

theorem Steps.log_subset (hst : Steps s t t') (h : Sound s t) : t.link.log ⊆ t'.link.log := by
  obtain ⟨e, hlink⟩ := hst.link h
  exact hlink.log_subset

/-- A message that is registered in a step is for the receiver, is not empty and fits the
machine. -/
theorem Sound.registered_step (h : Sound s t) (hst : Steps s t t') {n : UInt64}
    {dest : SocketAddr} {data : Bytes} {r : Bool}
    (hm : .registered n dest data r ∈ t'.link.log) :
    dest = s.there ∧ 0 < data.length ∧ data.length ≤ sizeMax := by
  cases hst with
  | registered data' reliable k q fits ok =>
    rcases List.mem_cons.mp hm with heq | hm
    · cases heq
      obtain ⟨_, _, hne, _⟩ := Queue.register_eq_ok_iff.mp ok
      exact ⟨rfl, List.length_pos_iff.mpr hne, fits⟩
    · exact h.registered n dest data r hm
  | arrived | acknowledged =>
    rcases List.mem_cons.mp hm with heq | hm
    · cases heq
    · exact h.registered n dest data r hm
  | _ => exact h.registered n dest data r hm

theorem Sound.step (h : Sound s t) (hst : Steps s t t') : Sound s t' := by
  obtain ⟨e, hlink⟩ := hst.link h
  have hnear := h.near.step hlink
  have hfar := h.far.step h.near hlink
  have hreg : ∀ n dest data r, .registered n dest data r ∈ t'.link.log →
      dest = s.there ∧ 0 < data.length ∧ data.length ≤ sizeMax :=
    fun _ _ _ _ hm => h.registered_step hst hm
  cases hst with
  | picked =>
    have hflying : t.flying ++ t.queue.next.1.toList ⊆ t.link.sent ++ t.queue.next.1.toList :=
      List.append_subset.mpr ⟨List.subset_append_of_subset_left _ h.flying,
        List.subset_append_right _ _⟩
    have hunwritten : t.unwritten ++ t.queue.next.1.toList.map (·.header.sequence) ⊆
        (t.link.sent ++ t.queue.next.1.toList).map (·.header.sequence) := by
      rw [List.map_append]
      exact List.append_subset.mpr ⟨List.subset_append_of_subset_left _ h.unwritten,
        List.subset_append_right _ _⟩
    exact ⟨hnear, hfar, hflying, h.replies, hunwritten, hreg⟩
  | written place =>
    exact ⟨hnear, hfar, h.flying, h.replies,
      fun _ hn => h.unwritten (List.eraseIdx_subset hn), hreg⟩
  | arrived place o =>
    have happend : t.replies ++ (Link.reply o).toList ⊆
        t.link.acks ++ (Link.reply o).toList :=
      List.append_subset.mpr ⟨List.subset_append_of_subset_left _ h.replies,
        List.subset_append_right _ _⟩
    exact ⟨hnear, hfar, fun _ ho => h.flying (List.eraseIdx_subset ho), happend, h.unwritten,
      hreg⟩
  | acknowledged place =>
    exact ⟨hnear, hfar, h.flying, fun _ hb => h.replies (List.eraseIdx_subset hb), h.unwritten,
      hreg⟩
  | _ => exact ⟨hnear, hfar, h.flying, h.replies, h.unwritten, hreg⟩

/-! ## What one step has done -/

theorem Steps.sent_subset (hst : Steps s t t') : t.link.sent ⊆ t'.link.sent := by
  cases hst with
  | picked => exact List.subset_append_left _ _
  | _ => exact List.Subset.refl _

/-- What a step has done to a message that is in the queue after it. -/
inductive Fate (t t' : Lossless) (n : UInt64) (m' : Message) : Prop
  | entered (new : n = t.queue.nextNumber) (unsent : m'.firstUnsent = 0) (lost : m'.lost = [])
  | emitted (m : Message) (found : t.queue.find? n = some m) (o : Outgoing)
      (emits : Message.Emits t.queue.maxFlight m (some o) m') (sent : o ∈ t'.link.sent)
  | kept (m : Message) (found : t.queue.find? n = some m) (reliable : m'.reliable = m.reliable)
      (unsent : m'.firstUnsent = m.firstUnsent) (lost : m'.lost.Sublist m.lost)
      (acked : ∀ i ∈ m.acked, i ∈ m'.acked)

theorem Steps.fate (hst : Steps s t t') (hs : Sound s t) {n : UInt64} {m' : Message}
    (hm' : t'.queue.find? n = some m') : Fate t t' n m' := by
  have hsame (hm : t.queue.find? n = some m') : Fate t t' n m' :=
    .kept m' hm rfl rfl (List.Sublist.refl _) fun _ hi => hi
  cases hst with
  | registered data reliable k q fits ok =>
    rcases Queue.message_of_register hs.queue ok hm' with ⟨hn, pieces, _, rfl⟩ | ⟨_, hm⟩
    · exact .entered (hn.trans (Queue.register_fields ok).1) rfl rfl
    · exact hsame hm
  | picked =>
    obtain ⟨m, hm, ⟨rfl, _⟩ | he⟩ := Queue.message_of_next hs.queue hm'
    · exact hsame hm
    · cases hout : t.queue.next.1.filter (·.header.sequence == m.sequence) with
      | none =>
        rw [hout] at he
        exact .kept m hm he.kin.reliable he.unsent_of_none he.lost_sublist
          fun _ hi => he.grows.2.symm ▸ hi
      | some o =>
        have ho := Option.mem_toList.mpr (Option.filter_eq_some_iff.mp hout).1
        rw [hout] at he
        exact .emitted m hm o he (List.mem_append_right _ ho)
  | written place k =>
    obtain ⟨m, hm, rfl⟩ := Queue.message_of_markWritten hm'
    split <;> exact .kept m hm rfl rfl (List.Sublist.refl _) fun _ hi => hi
  | acknowledged place ack =>
    have hack := Queue.acknowledges_acknowledge t.queue ack
    rcases Queue.message_of_acknowledges hs.queue hack hm' with hm | ⟨_, m, hm, taken, _⟩
    · exact hsame hm
    · obtain ⟨_, rfl⟩ := Message.acknowledge?_eq_some_iff.mp taken
      exact .kept m hm rfl rfl (List.Sublist.refl _)
        fun _ hi => Std.TreeSet.mem_insert.mpr (Or.inr hi)
  | _ => exact hsame hm'

/-- What holds at first and is kept by each step holds in every run. -/
theorem run_of_steps {P : Lossless → Prop} (hinit : P (init s))
    (hstep : ∀ t t', Sound s t → Steps s t t' → P t → P t') (events : List Event) :
    Sound s (run s events) ∧ P (run s events) := by
  induction events using List.reverseRecOn with
  | nil => exact ⟨sound_init s, hinit⟩
  | append_singleton events e ih =>
    rw [run_append]
    obtain ⟨hs, hP⟩ := ih
    have he := hs.steps e
    exact ⟨hs.step he, hstep _ _ hs he hP⟩

end

end Courier.Lossless
