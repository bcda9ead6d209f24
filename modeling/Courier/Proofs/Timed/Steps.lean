import Courier.Proofs.Link.Exact
import Courier.Proofs.Timed.Run

/-!
Every step of a link with a clock, what holds of the network and the clock in every run,
and what one step can have done to the chunks on the network, the acknowledgements, the
queue and the table.
-/

namespace Courier.Timed

open Outbound Reassembly

/-- Everything that a step can do, given that the network holds nothing but chunks of
registered messages and acknowledgements of them. -/
inductive Steps (s : Setup) (t : Timed) : Timed → Prop
  | idle : Steps s t t
  | registered (dest : SocketAddr) (data : Bytes) (reliable : Bool) (n : UInt64) (q : Queue)
      (ok : t.queue.register dest data reliable = .ok (n, q)) :
      Steps s t { t with
        link := { t.link.withQueue q with log := .registered n dest data reliable :: t.link.log } }
  | picked : Steps s t { t with
      link := { t.link.withQueue t.queue.next.2 with
        sent := t.link.sent ++ t.queue.next.1.toList }
      flying := t.flying ++ t.queue.next.1.toList }
  | written (n : UInt64) : Steps s t { t with link := t.link.withQueue (t.queue.markWritten n) }
  | arrived (place : Nat) (o : Outgoing) (found : t.flying[place]? = some o)
      (dest : o.dest = s.there) : Steps s t { t with
        link := t.link.received s.link o t.now
        flying := t.flying.eraseIdx place
        replies := t.replies ++ (Link.reply o).toList }
  | lost (place : Nat) : Steps s t { t with flying := t.flying.eraseIdx place }
  | acknowledged (place : Nat) (ack : Chunk.Header)
      (found : t.replies[place]? = some (Chunk.packet ack [])) (valid : ack.Valid) :
      Steps s t { t with
        link := t.link.acked (t.queue.acknowledge ack).2
        replies := t.replies.eraseIdx place }
  | replyLost (place : Nat) : Steps s t { t with replies := t.replies.eraseIdx place }
  | ticked (on : t.now = t.due) : Steps s t { t with
      link := t.link.withQueue
        (t.queue.tick s.config.resendTickThreshold s.config.resendThreshold).2
      due := t.due + s.interval }
  | cancelled (dest : SocketAddr) :
      Steps s t { t with link := t.link.withQueue (t.queue.dropTo dest).2 }
  | purged : Steps s t { t with
      link := t.link.purged
        (t.table.purge t.now s.config.inboundTimeout s.config.completedRetention).2
      purgeDue := t.purgeDue.map (· + s.interval) }
  | waited (nanos : Nat) (rests : Rests s t) (soon : t.now + nanos ≤ t.due) :
      Steps s t { t with now := t.now + nanos }

/-! ## The network and the clock -/

structure Sound (s : Setup) (t : Timed) : Prop where
  near : Link.Near s.link t.link
  far : Link.Far s.link t.link
  flying : t.flying ⊆ t.link.sent
  replies : t.replies ⊆ t.link.acks
  now_le : t.now ≤ t.due
  due_le : t.due ≤ t.now + s.interval

theorem Sound.queue {s : Setup} {t : Timed} (h : Sound s t) : t.queue.Sound := h.near.queue

theorem Sound.table {s : Setup} {t : Timed} (h : Sound s t) : t.table.Sound := h.far.table

theorem Sound.flight {s : Setup} {t : Timed} (h : Sound s t) :
    t.queue.maxFlight = s.config.maxFlight := h.near.flight

theorem sound_init (s : Setup) : Sound s (init s) where
  near := Link.near_init s.link
  far := Link.far_init s.link
  flying := List.nil_subset _
  replies := List.nil_subset _
  now_le := Nat.zero_le _
  due_le := Nat.le_trans s.first_le (Nat.le_add_left _ _)

/-- A tick that comes in time leaves time for another one. -/
theorem due_le_tick {due since k i : Nat} (h : due ≤ since + (k + 1) * i) :
    due + i ≤ since + (k + 1 + 1) * i := by
  rw [Nat.succ_mul]
  omega

section

variable {s : Setup} {t t' : Timed}

theorem Sound.steps (h : Sound s t) (e : Event) : Steps s t (step s t e) := by
  cases e with
  | register dest data reliable =>
    have hlink := h.near.steps (.register dest data reliable)
    show Steps s t { t with link := t.link.step s.link (.register dest data reliable) }
    generalize t.link.step s.link (.register dest data reliable) = link at hlink ⊢
    cases hlink with
    | idle => exact .idle
    | registered _ _ _ n q ok => exact .registered dest data reliable n q ok
  | pick => exact .picked
  | written n => exact .written n
  | arrive place =>
    cases ho : t.flying[place]? with
    | none =>
      simp only [step, ho]
      exact .idle
    | some o =>
      have hgen := h.near.genuine o (h.flying (List.mem_of_getElem? ho))
      by_cases hd : o.dest = s.there
      · have hacks : (t.link.received s.link o t.now).acks.drop t.link.acks.length =
            (Link.reply o).toList := List.drop_left
        simp only [step, ho, if_pos hd, Link.arrive_eq hgen, hacks]
        exact .arrived place o ho hd
      · simp only [step, ho, if_neg hd]
        exact .idle
  | lose place => exact .lost place
  | acknowledge place =>
    cases hb : t.replies[place]? with
    | none =>
      simp only [step, hb]
      exact .idle
    | some b =>
      obtain ⟨ack, hv, rfl, heq⟩ :=
        Link.acknowledge_eq (h.near.reply b (h.replies (List.mem_of_getElem? hb))) t.now
      simp only [step, hb, heq]
      exact .acknowledged place ack hb hv
  | loseReply place => exact .replyLost place
  | tick =>
    by_cases hon : t.now = t.due
    · simp only [step, if_pos hon]
      exact .ticked hon
    · simp only [step, if_neg hon]
      exact .idle
  | purge =>
    by_cases hp : t.purgeDue.all (t.now == ·) = true
    · simp only [step, if_pos hp]
      exact .purged
    · simp only [step, if_neg hp]
      exact .idle
  | cancel dest => exact .cancelled dest
  | wait nanos =>
    by_cases hw : Rests s t ∧ t.now + nanos ≤ t.due ∧ t.purgeDue.all (t.now + nanos ≤ ·)
    · simp only [step, if_pos hw]
      exact .waited nanos hw.1 hw.2.1
    · simp only [step, if_neg hw]
      exact .idle

/-- What happens to the link is a step of the link. -/
theorem Steps.link (h : Steps s t t') (hs : Sound s t) :
    ∃ e, Link.Steps s.link t.link e t'.link := by
  cases h with
  | idle => exact ⟨.pick, .idle _⟩
  | registered dest data reliable n q ok => exact ⟨_, .registered dest data reliable n q ok⟩
  | picked => exact ⟨_, .picked⟩
  | written n => exact ⟨_, .written n⟩
  | arrived place o found dest =>
    have ho := hs.flying (List.mem_of_getElem? found)
    obtain ⟨i, hi⟩ := List.mem_iff_getElem?.mp ho
    exact ⟨_, .arrived i o t.now hi dest (hs.near.valid ho)⟩
  | lost => exact ⟨.pick, .idle _⟩
  | acknowledged place ack found valid =>
    obtain ⟨i, hi⟩ := List.mem_iff_getElem?.mp (hs.replies (List.mem_of_getElem? found))
    exact ⟨_, .acknowledged i ack t.now hi valid⟩
  | replyLost => exact ⟨.pick, .idle _⟩
  | ticked => exact ⟨_, .ticked _ _⟩
  | cancelled dest => exact ⟨_, .cancelled dest⟩
  | purged => exact ⟨_, .purged _ _ _⟩
  | waited => exact ⟨.pick, .idle _⟩

theorem Sound.step (h : Sound s t) (hs : Steps s t t') : Sound s t' := by
  obtain ⟨e, hlink⟩ := hs.link h
  have hnear := h.near.step hlink
  have hfar := h.far.step h.near hlink
  have hsub : ∀ place, t.flying.eraseIdx place ⊆ t.link.sent :=
    fun place _ ho => h.flying (List.eraseIdx_subset ho)
  have hsub' : ∀ place, t.replies.eraseIdx place ⊆ t.link.acks :=
    fun place _ hb => h.replies (List.eraseIdx_subset hb)
  cases hs with
  | picked =>
    have happend : t.flying ++ t.queue.next.1.toList ⊆ t.link.sent ++ t.queue.next.1.toList :=
      List.append_subset.mpr ⟨List.subset_append_of_subset_left _ h.flying,
        List.subset_append_right _ _⟩
    exact ⟨hnear, hfar, happend, h.replies, h.now_le, h.due_le⟩
  | arrived place o found dest =>
    have happend : t.replies ++ (Link.reply o).toList ⊆
        t.link.acks ++ (Link.reply o).toList :=
      List.append_subset.mpr ⟨List.subset_append_of_subset_left _ h.replies,
        List.subset_append_right _ _⟩
    exact ⟨hnear, hfar, hsub place, happend, h.now_le, h.due_le⟩
  | lost place => exact ⟨hnear, hfar, hsub place, h.replies, h.now_le, h.due_le⟩
  | acknowledged place | replyLost place =>
    exact ⟨hnear, hfar, h.flying, hsub' place, h.now_le, h.due_le⟩
  | ticked on =>
    have hnow : t.now ≤ t.due + s.interval := Nat.le_add_right_of_le h.now_le
    exact ⟨hnear, hfar, h.flying, h.replies, hnow, Nat.le_of_eq (by rw [on])⟩
  | waited nanos rests soon =>
    have hdue : t.due ≤ t.now + nanos + s.interval :=
      Nat.le_trans h.due_le (Nat.add_le_add_right (Nat.le_add_right _ _) _)
    exact ⟨hnear, hfar, h.flying, h.replies, soon, hdue⟩
  | _ => exact ⟨hnear, hfar, h.flying, h.replies, h.now_le, h.due_le⟩

/-- A number under which a chunk came is not given again. -/
theorem Sound.not_entered (hs : Sound s t) {n : UInt64} {i : Nat} (hc : Link.Came n i t.link.log) :
    n ≠ t.queue.nextNumber := by
  rintro rfl
  exact Nat.lt_irrefl _ (hs.near.lt_next_of_came hc)

/-- The acknowledgement that answers a chunk. -/
theorem Sound.eq_toAck_of_reply (hs : Sound s t) {o : Outgoing} (ho : o ∈ t.flying)
    {ack : Chunk.Header} (hv : ack.Valid) (hr : Link.reply o = some (Chunk.packet ack [])) :
    ack = o.header.toAck := by
  unfold Link.reply at hr
  split at hr
  · have hvalid := Chunk.Header.valid_toAck (hs.near.valid (hs.flying ho))
    exact (Chunk.Header.packet_inj hv hvalid (Option.some.inj hr).symm).1
  · cases hr

/-- What holds at first and is kept by each step holds in every run. -/
theorem run_of_steps {P : Timed → Prop} (hinit : P (init s))
    (hstep : ∀ t t', Sound s t → Steps s t t' → P t → P t') (events : List Event) :
    Sound s (run s events) ∧ P (run s events) := by
  induction events using List.reverseRecOn with
  | nil => exact ⟨sound_init s, hinit⟩
  | append_singleton events e ih =>
    rw [run_append]
    obtain ⟨hs, hP⟩ := ih
    have he := hs.steps e
    exact ⟨hs.step he, hstep _ _ hs he hP⟩

/-! ## What one step has done -/

theorem Steps.log_subset (h : Steps s t t') (hs : Sound s t) : t.link.log ⊆ t'.link.log := by
  obtain ⟨e, hlink⟩ := h.link hs
  exact hlink.log_subset

/-- A step adds at most one fact. -/
theorem Steps.log_eq (h : Steps s t t') (hs : Sound s t) :
    t'.link.log = t.link.log ∨ ∃ f, t'.link.log = f :: t.link.log := by
  obtain ⟨e, hlink⟩ := h.link hs
  exact hlink.log_eq

/-- A chunk on the network was there before, or its message has just sent it. -/
theorem Steps.flying (h : Steps s t t') (hs : Sound s t) {o : Outgoing} (ho : o ∈ t'.flying) :
    o ∈ t.flying ∨ ∃ m m', t.queue.find? o.header.sequence = some m ∧
      t'.queue.find? o.header.sequence = some m' ∧
      Message.Emits s.config.maxFlight m (some o) m' := by
  cases h with
  | picked =>
    rcases List.mem_append.mp ho with ho | ho
    · exact Or.inl ho
    · have hemits := Queue.emits_of_next hs.queue (Option.mem_toList.mp ho)
      rw [hs.flight] at hemits
      exact Or.inr hemits
  | arrived place | lost place => exact Or.inl (List.eraseIdx_subset ho)
  | _ => exact Or.inl ho

/-- An acknowledgement on the network was there before, or answers a chunk that has just
arrived. -/
theorem Steps.replies (h : Steps s t t') {b : Bytes} (hb : b ∈ t'.replies) :
    b ∈ t.replies ∨ ∃ o ∈ t.flying, Link.reply o = some b ∧
      t'.link = t.link.received s.link o t.now ∧ t'.now = t.now := by
  cases h with
  | arrived place o found dest =>
    rcases List.mem_append.mp hb with hb | hb
    · exact Or.inl hb
    · exact Or.inr ⟨o, List.mem_of_getElem? found, Option.mem_toList.mp hb, rfl, rfl⟩
  | acknowledged place | replyLost place => exact Or.inl (List.eraseIdx_subset hb)
  | _ => exact Or.inl hb

/-- What a step has done to a message that is in the queue after it. -/
inductive Fate (s : Setup) (t t' : Timed) (n : UInt64) (m' : Message) : Prop
  | entered (new : n = t.queue.nextNumber) (unsent : m'.firstUnsent = 0)
      (ticks : m'.stalledTicks = 0) (lost : m'.lost = []) (acked : ∀ i, i ∉ m'.acked)
  | stayed (found : t.queue.find? n = some m') (due : t'.due = t.due)
  | emitted (m : Message) (found : t.queue.find? n = some m) (out : Option Outgoing)
      (emits : Message.Emits s.config.maxFlight m out m') (due : t'.due = t.due)
  | written (m : Message) (found : t.queue.find? n = some m) (written : m' = m.markWritten)
      (due : t'.due = t.due)
  | acknowledged (m : Message) (found : t.queue.find? n = some m) (ack : Chunk.Header)
      (valid : ack.Valid) (reply : Chunk.packet ack [] ∈ t.replies) (same : ack.sequence = n)
      (taken : m.acknowledge? ack.total ack.index.toNat = some m') (due : t'.due = t.due)
  | ticked (m : Message) (found : t.queue.find? n = some m) (tick : Tick)
      (ticks : Message.Ticks s.config.maxFlight s.config.resendTickThreshold
        s.config.resendThreshold m false m' tick) (due : t'.due = t.due + s.interval)

theorem Steps.fate (h : Steps s t t') (hs : Sound s t) {n : UInt64} {m' : Message}
    (hm' : t'.queue.find? n = some m') : Fate s t t' n m' := by
  have hq := hs.queue
  cases h with
  | registered dest data reliable k q ok =>
    rcases Queue.message_of_register hq ok hm' with ⟨hn, pieces, _, rfl⟩ | ⟨_, hm⟩
    · exact .entered (hn.trans (Queue.register_fields ok).1) rfl rfl rfl (by simp)
    · exact .stayed hm rfl
  | picked =>
    obtain ⟨m, hm, ⟨rfl, _⟩ | he⟩ := Queue.message_of_next hq hm'
    · exact .stayed hm rfl
    · rw [hs.flight] at he
      exact .emitted m hm _ he rfl
  | written k =>
    obtain ⟨m, hm, rfl⟩ := Queue.message_of_markWritten hm'
    split
    · exact .written m hm rfl rfl
    · exact .stayed hm rfl
  | acknowledged place ack found valid =>
    have hack := Queue.acknowledges_acknowledge t.queue ack
    rcases Queue.message_of_acknowledges hq hack hm' with hm | ⟨hn, m, hm, taken, _⟩
    · exact .stayed hm rfl
    · exact .acknowledged m hm ack valid (List.mem_of_getElem? found) hn.symm taken rfl
  | ticked on =>
    obtain ⟨m, tick, hm, ticks⟩ := Queue.ticks_of_find? hq hm'
    rw [hs.flight] at ticks
    exact .ticked m hm tick ticks rfl
  | cancelled dest =>
    change (t.queue.dropTo dest).2.find? n = some m' at hm'
    rw [Queue.find?_dropTo hq, Option.filter_eq_some_iff] at hm'
    exact .stayed hm'.1 rfl
  | _ => exact .stayed hm' rfl

/-- A message that has not just entered the queue was there before. -/
theorem Fate.kin {n : UInt64} {m' : Message} (h : Fate s t t' n m') :
    n = t.queue.nextNumber ∨ ∃ m, t.queue.find? n = some m ∧ Message.Kin m m' := by
  cases h with
  | entered new => exact Or.inl new
  | stayed found => exact Or.inr ⟨m', found, .refl m'⟩
  | emitted m found out emits => exact Or.inr ⟨m, found, emits.kin⟩
  | written m found written => exact Or.inr ⟨m, found, written ▸ ⟨rfl, rfl, rfl, rfl⟩⟩
  | acknowledged m found ack _ _ _ taken =>
    exact Or.inr ⟨m, found, Message.kin_of_acknowledge? taken⟩
  | ticked m found tick ticks => exact Or.inr ⟨m, found, ticks.kin⟩

/-- Time does not go on while an acknowledgement is on the network. -/
theorem Steps.now_eq (h : Steps s t t') {b : Bytes} (hb : b ∈ t.replies) : t'.now = t.now := by
  cases h with
  | waited nanos rests =>
    rw [rests.2.1] at hb
    cases hb
  | _ => rfl

/-- An incomplete message was there before, or a chunk has just been stored in it. -/
theorem Steps.find? (h : Steps s t t') (hs : Sound s t) {k : Key} {p' : Partial}
    (hp' : t'.table.find? k = some p') :
    t.table.find? k = some p' ∨ ∃ o ∈ t.flying, k = (s.here, o.header.sequence) ∧
      p' = t.table.filled k o.header o.payload t.now ∧ t'.now = t.now := by
  cases h with
  | arrived place o found dest =>
    have ho := List.mem_of_getElem? found
    rcases (hs.near.inserts (hs.flying ho) t.now).find?_eq_some hp' with hp | ⟨rfl, rfl⟩
    · exact Or.inl hp
    · exact Or.inr ⟨o, ho, rfl, rfl, rfl⟩
  | purged =>
    change (t.table.purge _ _ _).2.find? k = some p' at hp'
    rw [hs.table.find?_purge, Option.filter_eq_some_iff] at hp'
    exact Or.inl hp'.1
  | _ => exact Or.inl hp'

/-- A chunk has come before, or it has just left the network. -/
theorem Steps.came (h : Steps s t t') {n : UInt64} {i : Nat} (hc : Link.Came n i t'.link.log) :
    Link.Came n i t.link.log ∨ ∃ place o, t.flying[place]? = some o ∧
      t'.flying = t.flying.eraseIdx place ∧ o.header.sequence = n ∧
      o.header.index.toNat = i := by
  cases h with
  | arrived place o found =>
    rcases Link.came_arrived_cons.mp hc with ⟨hs, hi⟩ | hc
    · exact Or.inr ⟨place, o, found, rfl, hs, hi⟩
    · exact Or.inl hc
  | registered | acknowledged | purged => exact Or.inl ((Link.came_cons (by simp)).mp hc)
  | _ => exact Or.inl hc

/-- A fact that tells of a purge was there before, or the far end has just purged. -/
theorem Steps.of_purged (h : Steps s t t') {discarded forgotten : List Key}
    (hm : .purged discarded forgotten ∈ t'.link.log) :
    .purged discarded forgotten ∈ t.link.log ∨
      (discarded = Link.discarded t.table t'.table ∧ forgotten = Link.forgotten t.table t'.table) ∧
        t'.queue = t.queue ∧
        t'.table = (t.table.purge t.now s.config.inboundTimeout s.config.completedRetention).2 := by
  cases h with
  | purged =>
    rcases List.mem_cons.mp hm with heq | hm
    · cases heq
      exact Or.inr ⟨⟨rfl, rfl⟩, rfl, rfl⟩
    · exact Or.inl hm
  | registered | arrived | acknowledged =>
    rcases List.mem_cons.mp hm with heq | hm
    · cases heq
    · exact Or.inl hm
  | _ => exact Or.inl hm

/-- A fact that tells of an arrival comes from a chunk on the network. -/
theorem Steps.of_arrived (h : Steps s t t') {o : Outgoing} {outcome : Outcome}
    {d : Option Received} (hl : t'.link.log = .arrived o outcome d :: t.link.log) :
    o ∈ t.flying ∧ outcome = (t.link.insert s.link o t.now).1 := by
  cases h with
  | arrived place o' found dest =>
    obtain ⟨heq, _⟩ := List.cons.inj hl
    cases heq
    exact ⟨List.mem_of_getElem? found, rfl⟩
  | registered | acknowledged | purged => exact absurd (List.cons.inj hl).1 (by simp)
  | _ => exact absurd hl.symm (List.cons_ne_self _ _)

end

end Courier.Timed
