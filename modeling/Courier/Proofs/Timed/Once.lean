import Courier.Proofs.Config
import Courier.Proofs.Timed.Single

/-!
A message is delivered at most once, also after the far end forgot that it had it. What
the near end still sends then is never enough to complete the message again: either it
sends nothing any more, or one of the chunks never comes again.
-/

namespace Courier.Timed

open Outbound Reassembly

/-! ## Messages that cannot be completed again -/

/-- A chunk that came and does not come again: the far end does not have it, and whenever
its message is still in the queue it is acknowledged. -/
structure Past (s : Setup) (t : Timed) (n : UInt64) (j : Nat) : Prop where
  came : Link.Came n j t.link.log
  absent : ∀ p, t.table.find? (s.here, n) = some p → j ∉ p.pieces
  flying : ∀ o ∈ t.flying, o.header.sequence = n → o.header.index.toNat ≠ j
  acked : ∀ m, t.queue.find? n = some m → j ∈ m.acked

/-- No acknowledgement of the message is on the network. -/
def Unanswered (t : Timed) (n : UInt64) : Prop :=
  ∀ ack : Chunk.Header, ack.Valid → Chunk.packet ack [] ∈ t.replies → ack.sequence ≠ n

/-- A message that came and that sends no chunk any more: the next tick that would send
chunks again gives it up, and no acknowledgement comes before. -/
structure Quiet (s : Setup) (t : Timed) (n : UInt64) : Prop where
  came : ∃ i, Link.Came n i t.link.log
  flying : ∀ o ∈ t.flying, o.header.sequence ≠ n
  sent : ∀ m, t.queue.find? n = some m → m.lost = [] ∧ m.firstUnsent = m.total
  last : ∀ m, t.queue.find? n = some m → m.reliable = true → s.config.Resends →
    s.config.resendThreshold ≤ m.stalledTicks + 1 ∧ Unanswered t n

def Over (s : Setup) (t : Timed) (n : UInt64) : Prop := Quiet s t n ∨ ∃ j, Past s t n j

section

variable {s : Setup} {t t' : Timed} {n : UInt64}

theorem Past.step {j : Nat} (h : Past s t n j) (hs : Sound s t) (hst : Steps s t t') :
    Past s t' n j where
  came := h.came.mono (hst.log_subset hs)
  absent := fun p' hp' hj => by
    rcases hst.find? hs hp' with hp | ⟨o, ho, hk, rfl, _⟩
    · exact h.absent p' hp hj
    · cases hk
      rcases mem_filled.mp hj with hi | hj
      · exact h.flying o ho rfl hi
      · obtain ⟨p, hp, hj⟩ := find?_of_mem_target hj
        exact h.absent p hp hj
  flying := fun o ho hn hi => by
    subst hn
    rcases hst.flying hs ho with ho | ⟨m, m', hm, _, he⟩
    · exact h.flying o ho rfl hi
    · exact hs.near.not_acked_of_emits hm he (hi ▸ h.acked m hm)
  acked := fun m' hm' => by
    cases hst.fate hs hm' with
    | entered new => exact absurd new (hs.not_entered h.came)
    | stayed found => exact h.acked m' found
    | emitted m found out emits => exact emits.grows.2 ▸ h.acked m found
    | written m found written => exact written ▸ h.acked m found
    | acknowledged m found ack _ _ _ taken =>
      rw [(Message.acknowledge?_eq_some_iff.mp taken).2]
      exact Std.TreeSet.mem_insert.mpr (Or.inr (h.acked m found))
    | ticked m found tick ticks => exact ticks.same.2 ▸ h.acked m found

theorem Quiet.sent_step (h : Quiet s t n) (hs : Sound s t) (hst : Steps s t t') {m' : Message}
    (hm' : t'.queue.find? n = some m') : m'.lost = [] ∧ m'.firstUnsent = m'.total := by
  obtain ⟨i, hc⟩ := h.came
  cases hst.fate hs hm' with
  | entered new => exact absurd new (hs.not_entered hc)
  | stayed found => exact h.sent m' found
  | emitted m found out emits =>
    obtain ⟨hl, hf⟩ := h.sent m found
    exact ⟨List.sublist_nil.mp (hl ▸ emits.lost_sublist), (emits.of_sent hl hf).2⟩
  | written m found written => exact written ▸ h.sent m found
  | acknowledged m found ack _ _ _ taken =>
    rw [(Message.acknowledge?_eq_some_iff.mp taken).2]
    exact h.sent m found
  | ticked m found tick ticks =>
    obtain ⟨hl, hf⟩ := h.sent m found
    refine ⟨?_, by rw [ticks.same.1, ticks.kin.total, hf]⟩
    by_cases hr : s.config.Resends
    · -- a tick that keeps the message and sends chunks again comes earlier
      cases ticks with
      | again kind early => exact absurd (h.last m found kind hr).1 (Nat.not_le.mpr early)
      | unfinished | waits => exact hl
    · rw [ticks.lost_eq hr, hl]

theorem Quiet.last_step (h : Quiet s t n) (hs : Sound s t) (hst : Steps s t t') {m' : Message}
    (hm' : t'.queue.find? n = some m') (hrel : m'.reliable = true) (hr : s.config.Resends) :
    s.config.resendThreshold ≤ m'.stalledTicks + 1 ∧ Unanswered t' n := by
  obtain ⟨i, hc⟩ := h.came
  have hreplies : Unanswered t n → Unanswered t' n := fun hold ack hv hb => by
    rcases hst.replies hb with hb | ⟨o, ho, hreply, _⟩
    · exact hold ack hv hb
    · rw [hs.eq_toAck_of_reply ho hv hreply]
      exact h.flying o ho
  cases hst.fate hs hm' with
  | entered new => exact absurd new (hs.not_entered hc)
  | stayed found => exact (h.last m' found hrel hr).imp_right hreplies
  | emitted m found out emits =>
    rw [emits.stalledTicks_eq]
    exact (h.last m found (emits.kin.reliable ▸ hrel) hr).imp_right hreplies
  | written m found written =>
    subst written
    exact (h.last m found hrel hr).imp_right hreplies
  | acknowledged m found ack valid reply same taken =>
    have hrel := (Message.acknowledge?_eq_some_iff.mp taken).1.1
    exact absurd same ((h.last m found hrel hr).2 ack valid reply)
  | ticked m found tick ticks =>
    have hlast := (h.last m found (ticks.kin.reliable ▸ hrel) hr).1
    cases ticks with
    | unfinished kind => exact absurd hrel (by simp [kind])
    | again kind early | waits kind early => exact absurd hlast (Nat.not_le.mpr early)

theorem Quiet.step (h : Quiet s t n) (hs : Sound s t) (hst : Steps s t t') : Quiet s t' n where
  came := h.came.imp fun _ hc => hc.mono (hst.log_subset hs)
  flying := fun o ho hn => by
    subst hn
    rcases hst.flying hs ho with ho | ⟨m, m', hm, _, he⟩
    · exact h.flying o ho rfl
    · obtain ⟨hl, hf⟩ := h.sent m hm
      cases (he.of_sent hl hf).1
  sent := fun _ hm' => h.sent_step hs hst hm'
  last := fun _ hm' => h.last_step hs hst hm'

theorem Over.step (h : Over s t n) (hs : Sound s t) (hst : Steps s t t') : Over s t' n := by
  rcases h with h | ⟨j, h⟩
  · exact Or.inl (h.step hs hst)
  · exact Or.inr ⟨j, h.step hs hst⟩

/-- No chunk completes it. -/
theorem Over.not_complete {o : Outgoing} (h : Over s t o.header.sequence) (hs : Sound s t)
    (ho : o ∈ t.flying) (data : Bytes) : (t.link.insert s.link o t.now).1 ≠ .complete data := by
  intro hc
  have hsent := hs.flying ho
  rcases h with h | ⟨j, h⟩
  · exact h.flying o ho rfl
  obtain ⟨acceptable, all, _⟩ := (hs.near.inserts hsent t.now).of_complete hc
  -- the chunk that does not come again is one of the message
  have hj : j < o.header.total.toNat := by
    obtain ⟨o', _, _, hm, hseq, rfl⟩ := h.came
    have hsent' := (hs.near.travelled o' _ _ hm).1
    rw [← (hs.near.same_header (hs.near.genuine o' hsent') (hs.near.genuine o hsent) hseq).2]
    exact UInt16.lt_iff_toNat_lt.mp (hs.near.valid hsent')
  rcases hs.table.mem_target_of_full (hs.near.valid hsent) acceptable all hj with hi | hmem
  · exact h.flying o ho rfl hi
  · obtain ⟨p, hp, hmem⟩ := find?_of_mem_target hmem
    exact h.absent p hp hmem

end

/-! ## Messages that are remembered as completed -/

/-- The far end remembers the message. As long as no chunk of it is acknowledged, the clock
of the near end has not started anew since. -/
structure Remembered (s : Setup) (t : Timed) (n : UInt64) (since : Instant) : Prop where
  lookup : t.table.completed.lookup (s.here, n) = some since
  since_le : since ≤ t.now
  lasts : t.now < since + s.config.completedRetention.nanos
  due_le : ∀ m, t.queue.find? n = some m → m.reliable = true → (∀ i, i ∉ m.acked) →
    t.due ≤ since + (m.stalledTicks + 1) * s.interval

/-- A completed message is not completed again. -/
def Done (s : Setup) (t : Timed) (n : UInt64) : Prop :=
  Over s t n ∨ ∃ since, Remembered s t n since

/-- A message none of whose chunks is acknowledged is given up when the retention is
over. -/
theorem threshold_le_of_late {since now due i T R k : Nat} (hlate : since + R ≤ now)
    (hnow : now ≤ due) (hdue : due ≤ since + (k + 1) * i) (hwindow : i * T ≤ R) (hi : 0 < i) :
    T ≤ k + 1 := by
  have : i * T ≤ i * (k + 1) := by
    rw [Nat.mul_comm i (k + 1)]
    omega
  exact Nat.le_of_mul_le_mul_left this hi

section

variable {s : Setup} {t t' : Timed} {n : UInt64}

theorem Remembered.due_le_step {since : Instant} (h : Remembered s t n since) (hs : Sound s t)
    (hc : Link.Completed n t.link.log) (hst : Steps s t t') {m' : Message}
    (hm' : t'.queue.find? n = some m') (hrel : m'.reliable = true) (hacked : ∀ i, i ∉ m'.acked) :
    t'.due ≤ since + (m'.stalledTicks + 1) * s.interval := by
  cases hst.fate hs hm' with
  | entered new =>
    obtain ⟨i, hcame⟩ := hc.came
    exact absurd new (hs.not_entered hcame)
  | stayed found due => exact due ▸ h.due_le m' found hrel hacked
  | emitted m found out emits due =>
    rw [due, emits.stalledTicks_eq]
    exact h.due_le m found (emits.kin.reliable ▸ hrel) (emits.grows.2 ▸ hacked)
  | written m found written due =>
    subst written
    exact due ▸ h.due_le m found hrel hacked
  | acknowledged m found ack _ _ _ taken =>
    rw [(Message.acknowledge?_eq_some_iff.mp taken).2] at hacked
    exact absurd (Std.TreeSet.mem_insert_self) (hacked ack.index.toNat)
  | ticked m found tick ticks due =>
    have hold := h.due_le m found (ticks.kin.reliable ▸ hrel) (ticks.same.2 ▸ hacked)
    rw [due]
    cases ticks with
    | unfinished kind => exact absurd hrel (by simp [kind])
    | again | waits => exact due_le_tick hold

theorem Remembered.lookup_step {since : Instant} (h : Remembered s t n since) (hs : Sound s t)
    (hst : Steps s t t') : t'.table.completed.lookup (s.here, n) = some since := by
  cases hst with
  | arrived place o found =>
    exact (hs.near.inserts (hs.flying (List.mem_of_getElem? found)) t.now).lookup_of_some h.lookup
  | purged =>
    show (t.table.purge _ _ _).2.completed.lookup _ = _
    have hyoung : t.now - since < s.config.completedRetention.nanos :=
      Nat.sub_lt_left_of_lt_add h.since_le h.lasts
    rw [hs.table.lookup_purge, h.lookup]
    simp [hyoung]
  | _ => exact h.lookup

/-- A completed message has had all its chunks. -/
theorem Sound.came_of_completed (hs : Sound s t) (hc : Link.Completed n t.link.log) {m : Message}
    (hm : t.queue.find? n = some m) {i : Nat} (hi : i < m.total) : Link.Came n i t.link.log := by
  obtain ⟨o, data, d, ho, rfl⟩ := hc
  have hsent := (hs.near.travelled o _ d ho).1
  rw [← (hs.near.header_of_find? hsent hm).2] at hi
  exact (hs.far.delivered o data d ho).2 i hi

/-- All chunks of a completed message are sent. -/
theorem Sound.firstUnsent_of_completed (hs : Sound s t) (hc : Link.Completed n t.link.log)
    {m : Message} (hm : t.queue.find? n = some m) : m.firstUnsent = m.total := by
  have hle := (hs.queue.message hm).firstUnsent_le
  by_contra hne
  exact Nat.lt_irrefl _ (hs.near.lt_of_came hm
    (hs.came_of_completed hc hm (show m.firstUnsent < m.total by omega)))

/-- A chunk that is acknowledged does not come again, once nothing travels. -/
theorem Remembered.past_of_acked {since : Instant} (h : Remembered s t n since) (hs : Sound s t)
    (hflying : t.flying = []) {m : Message} (hm : t.queue.find? n = some m) {j : Nat}
    (hj : j ∈ m.acked) : Past s t n j where
  came := hs.near.acked n m j hm hj
  absent := fun p hp => by cases (hs.table.apart _ p hp).symm.trans h.lookup
  flying := by simp [hflying]
  acked := fun m' hm' => by
    cases hm.symm.trans hm'
    exact hj

/-- A message none of whose chunks is acknowledged sends nothing more when the retention is
over. -/
theorem Remembered.quiet_of_late {since : Instant} (h : Remembered s t n since) (hs : Sound s t)
    (hconfig : s.config.Sound) (hpos : 0 < s.interval) (hprompt : s.prompt = true)
    (hc : Link.Completed n t.link.log) (hrests : Rests s t) {now : Instant} (hnow : now ≤ t.due)
    (hlate : since + s.config.completedRetention.nanos ≤ now)
    (hnone : ∀ m, t.queue.find? n = some m → ∀ i, i ∉ m.acked) : Quiet s t n := by
  obtain ⟨hflying, hreplies, hnext⟩ := hrests
  refine ⟨hc.came, by simp [hflying], fun m hm => ⟨?_, ?_⟩, fun m hm hrel _ => ⟨?_, ?_⟩⟩
  · -- a chunk to be sent again would have been sent by now
    have hemit := Queue.emit_none_of_next (hnext hprompt) m (hs.queue.find?_iff.mp hm).1
    exact (Message.emits_of_fst hemit).lost_eq_nil (hnone m hm)
  · exact hs.firstUnsent_of_completed hc hm
  · exact threshold_le_of_late hlate hnow (h.due_le m hm hrel (hnone m hm)) hconfig.window_le hpos
  · intro ack _ hb
    simp [hreplies] at hb

theorem Remembered.over_of_late {since : Instant} (h : Remembered s t n since) (hs : Sound s t)
    (hconfig : s.config.Sound) (hpos : 0 < s.interval) (hprompt : s.prompt = true)
    (hc : Link.Completed n t.link.log) (hrests : Rests s t) {now : Instant} (hnow : now ≤ t.due)
    (hlate : since + s.config.completedRetention.nanos ≤ now) : Over s t n := by
  by_cases hacked : ∃ m j, t.queue.find? n = some m ∧ j ∈ m.acked
  · obtain ⟨m, j, hm, hj⟩ := hacked
    exact Or.inr ⟨j, h.past_of_acked hs hrests.1 hm hj⟩
  · exact Or.inl (h.quiet_of_late hs hconfig hpos hprompt hc hrests hnow hlate
      fun m hm i hi => hacked ⟨m, i, hm, hi⟩)

theorem Over.waited (h : Over s t n) (nanos : Nat) : Over s { t with now := t.now + nanos } n :=
  h.imp (fun h => ⟨h.came, h.flying, h.sent, h.last⟩)
    fun ⟨j, h⟩ => ⟨j, h.came, h.absent, h.flying, h.acked⟩

theorem Done.step (h : Done s t n) (hs : Sound s t) (hconfig : s.config.Sound)
    (hpos : 0 < s.interval) (hprompt : s.prompt = true) (hc : Link.Completed n t.link.log)
    (hst : Steps s t t') : Done s t' n := by
  rcases h with h | ⟨since, h⟩
  · exact Or.inl (h.step hs hst)
  have hlookup := h.lookup_step hs hst
  have hdue : ∀ m', t'.queue.find? n = some m' → m'.reliable = true → (∀ i, i ∉ m'.acked) →
      t'.due ≤ since + (m'.stalledTicks + 1) * s.interval :=
    fun _ hm' => h.due_le_step hs hc hst hm'
  cases hst with
  | waited nanos rests soon =>
    rcases Nat.lt_or_ge (t.now + nanos) (since + s.config.completedRetention.nanos) with hlt | hge
    · exact Or.inr ⟨since, hlookup, Nat.le_add_right_of_le h.since_le, hlt, hdue⟩
    · exact Or.inl ((h.over_of_late hs hconfig hpos hprompt hc rests soon hge).waited nanos)
  | _ => exact Or.inr ⟨since, hlookup, h.since_le, h.lasts, hdue⟩

/-! ## A message that was just completed -/

/-- If no tick sends its chunks again, all of them are gone from the network. -/
theorem Single.sequence_ne (h : Single s t) (hs : Sound s t) {o o' : Outgoing}
    (ho : o ∈ t.link.sent) (hu : Unrepeated s o)
    (hc : Link.Completed o.header.sequence t.link.log) (ho' : o' ∈ t.flying) :
    o'.header.sequence ≠ o.header.sequence := by
  intro hseq
  have hsent' := hs.flying ho'
  have hkind := (hs.near.same_header (hs.near.genuine o' hsent') (hs.near.genuine o ho) hseq).1
  have hu' : Unrepeated s o' := by
    unfold Unrepeated at hu ⊢
    rwa [hkind]
  rw [← hseq] at hc
  exact h.fresh o' ho' hu' (hs.far.came_of_completed hs.near hsent' hc
    (UInt16.lt_iff_toNat_lt.mp (hs.near.valid hsent')))

/-- The message of a chunk that no tick sends again. -/
theorem Sound.unrepeated_message (hs : Sound s t) {o : Outgoing} (ho : o ∈ t.link.sent)
    (hu : Unrepeated s o) {m : Message} (hm : t.queue.find? o.header.sequence = some m) :
    m.reliable = false ∨ ¬ s.config.Resends := by
  refine hu.imp_left fun hk => ?_
  rw [(hs.near.header_of_find? ho hm).1] at hk
  simpa [Message.reliable_eq] using hk

theorem quiet_of_unrepeated (hs : Sound s t) (hsingle : Single s t) {o : Outgoing}
    (ho : o ∈ t.link.sent) (hu : Unrepeated s o)
    (hc : Link.Completed o.header.sequence t.link.log) : Quiet s t o.header.sequence where
  came := hc.came
  flying := fun _ ho' => hsingle.sequence_ne hs ho hu hc ho'
  sent := fun m hm => by
    refine ⟨?_, hs.firstUnsent_of_completed hc hm⟩
    rcases hs.unrepeated_message ho hu hm with hf | hr
    · exact (hs.queue.message hm).lost_empty hf
    · exact hsingle.lost hr _ m hm
  last := fun m hm hrel hr => by
    rcases hs.unrepeated_message ho hu hm with hf | hn
    · exact absurd hrel (by simp [hf])
    · exact absurd hr hn

/-- Chunks are sent again only if the far end remembers messages for a while. -/
theorem retention_pos (hconfig : s.config.Sound) (hpos : 0 < s.interval)
    (hr : s.config.Resends) : 0 < s.config.completedRetention.nanos := by
  have hthreshold : 0 < s.config.resendThreshold := Nat.zero_lt_of_lt hr
  exact Nat.lt_of_lt_of_le (Nat.mul_pos hpos hthreshold) hconfig.window_le

theorem done_of_complete (hs : Sound s t) (hst : Steps s t t') (hsingle : Single s t')
    (hconfig : s.config.Sound) (hpos : 0 < s.interval) {o : Outgoing} {data : Bytes}
    {d : Option Received} (hl : t'.link.log = .arrived o (.complete data) d :: t.link.log) :
    Done s t' o.header.sequence := by
  have hs' := hs.step hst
  have hc : Link.Completed o.header.sequence t'.link.log := by
    rw [hl]
    exact ⟨o, data, d, List.mem_cons_self, rfl⟩
  have hsent := (hs'.near.travelled o _ d (by rw [hl]; exact List.mem_cons_self)).1
  by_cases hu : Unrepeated s o
  · exact Or.inl (Or.inl (quiet_of_unrepeated hs' hsingle hsent hu hc))
  · have hr : s.config.Resends := by
      by_contra hr
      exact hu (Or.inr hr)
    have hpositive := retention_pos hconfig hpos hr
    -- the message is remembered from now on
    obtain ⟨hlookup, hnow⟩ : t'.table.completed.lookup (s.here, o.header.sequence) = some t.now ∧
        t'.now = t.now := by
      cases hst with
      | arrived place o' found =>
        obtain ⟨heq, _⟩ := List.cons.inj hl
        obtain ⟨rfl, hcomplete, _⟩ := Link.Fact.arrived.inj heq
        have hins := hs.near.inserts (hs.flying (List.mem_of_getElem? found)) t.now
        exact ⟨hins.lookup_of_complete hcomplete, rfl⟩
      | registered | acknowledged | purged => exact absurd (List.cons.inj hl).1 (by simp)
      | _ => exact absurd hl.symm (List.cons_ne_self _ _)
    refine Or.inr ⟨t.now, hlookup, Nat.le_of_eq hnow.symm, ?_, fun m _ _ _ => ?_⟩
    · rw [hnow]
      exact Nat.lt_add_of_pos_right hpositive
    · refine Nat.le_trans hs'.due_le ?_
      rw [hnow]
      exact Nat.add_le_add_left (Nat.le_mul_of_pos_left _ (Nat.succ_pos _)) _

/-! ## The whole run -/

/-- What a completed message needs in order not to be completed again. -/
structure Settled (s : Setup) (t : Timed) : Prop where
  single : Single s t
  done : ∀ n, Link.Completed n t.link.log → Done s t n
  once : Link.Always (fun f log => ∀ o data d, f = .arrived o (.complete data) d →
    ¬ Link.Completed o.header.sequence log) t.link.log

theorem settled_init (s : Setup) : Settled s (init s) where
  single := single_init s
  done := by simp [init, Link.init, Link.Completed]
  once := fun later f earlier heq => absurd heq (by simp [init, Link.init])

theorem Done.not_complete {o : Outgoing} (h : Done s t o.header.sequence) (hs : Sound s t)
    (ho : o ∈ t.flying) (data : Bytes) : (t.link.insert s.link o t.now).1 ≠ .complete data := by
  rcases h with h | ⟨since, h⟩
  · exact h.not_complete hs ho data
  · intro hc
    obtain ⟨acceptable, _⟩ := (hs.near.inserts (hs.flying ho) t.now).of_complete hc
    cases acceptable.unfinished.symm.trans h.lookup

theorem Settled.step (h : Settled s t) (hs : Sound s t) (hconfig : s.config.Sound)
    (hpos : 0 < s.interval) (hprompt : s.prompt = true) (hst : Steps s t t') : Settled s t' where
  single := h.single.step hs hst
  done := fun n hc => by
    by_cases hold : Link.Completed n t.link.log
    · exact (h.done n hold).step hs hconfig hpos hprompt hold hst
    · obtain ⟨o, data, d, hm, rfl⟩ := hc
      have hnew : Link.Fact.arrived o (.complete data) d ∉ t.link.log :=
        fun hm => hold ⟨o, data, d, hm, rfl⟩
      rcases hst.log_eq hs with heq | ⟨f, heq⟩
      · exact absurd (heq ▸ hm) hnew
      · rw [heq] at hm
        rcases List.mem_cons.mp hm with rfl | hm
        · exact done_of_complete hs hst (h.single.step hs hst) hconfig hpos heq
        · exact absurd hm hnew
  once := by
    rcases hst.log_eq hs with heq | ⟨f, heq⟩
    · rw [heq]
      exact h.once
    · rw [heq]
      refine Link.always_cons (fun o data d hf hc => ?_) h.once
      subst hf
      obtain ⟨ho, hcomplete⟩ := hst.of_arrived heq
      exact (h.done _ hc).not_complete hs ho data hcomplete.symm

/-- No message is delivered twice, although the far end forgets which it has had: with
accepted settings and a near end that sends promptly, over a network that loses what it
likes. -/
theorem once_run (s : Setup) (hvalid : s.config.validate = .ok ())
    (hpos : 0 < s.config.resendInterval.nanos) (hprompt : s.prompt = true) (events : List Event)
    {later earlier : List Link.Fact} {o : Outgoing} {data : Bytes} {d : Option Received}
    (hlog : (run s events).link.log = later ++ .arrived o (.complete data) d :: earlier) :
    ¬ Link.Completed o.header.sequence earlier := by
  have hconfig := (Config.validate_eq_ok_iff _).mp hvalid
  have hsettled := (run_of_steps (settled_init s)
    (fun _ _ hs hst h => h.step hs hconfig hpos hprompt hst) events).2
  exact hsettled.once later _ earlier hlog o data d rfl

end

/-- Chunks of one byte, and a far end that remembers messages for five seconds. -/
def brief : Setup where
  config := { packetSize := 14, completedRetention := .ofSeconds 5 }
  here := { ip := .v4 127 0 0 1, port := 7000 }
  there := { ip := .v4 127 0 0 1, port := 7001 }
  first := Duration.perSecond
  first_le := by decide
  firstPurge := none
  firstPurge_le := by simp
  prompt := true

/-- Two chunks arrive at once, but only the first is ever acknowledged, and that at the
first tick. The second is sent again, and arrives when the message is forgotten. -/
def sentAgain : List Event :=
  [.register brief.there [1, 2] true, .pick, .pick, .arrive 0, .arrive 0, .loseReply 0,
    .loseReply 0, .wait Duration.perSecond, .tick, .pick, .pick, .arrive 0, .acknowledge 0,
    .lose 0] ++
  (List.replicate 3 [.wait Duration.perSecond, .tick, .pick, .lose 0]).flatten ++
  [.wait Duration.perSecond, .purge, .tick, .pick, .arrive 0]

/-- The second of the two chunks. -/
def secondChunk (resent : Bool) : Outgoing := ⟨brief.there, ⟨.data, 0, 2, 1⟩, resent, [2]⟩

theorem once_sentAgain :
    brief.config.validate = .ok () ∧ 0 < brief.config.resendInterval.nanos ∧
      brief.prompt = true ∧ ∃ later d earlier,
        (run brief sentAgain).link.log = .arrived (secondChunk true) .incomplete none ::
          .purged [] [(brief.here, 0)] :: later ++
            .arrived (secondChunk false) (.complete [1, 2]) d :: earlier ∧
        ¬ Link.Completed 0 earlier := by
  obtain ⟨later, d, earlier, hlog⟩ : ∃ later d earlier,
      (run brief sentAgain).link.log = .arrived (secondChunk true) .incomplete none ::
        .purged [] [(brief.here, 0)] :: later ++
          .arrived (secondChunk false) (.complete [1, 2]) d :: earlier :=
    ⟨[_, _], _, [_, _], rfl⟩
  have hpos : 0 < brief.config.resendInterval.nanos := by decide
  exact ⟨rfl, hpos, rfl, later, d, earlier, hlog, once_run brief rfl hpos rfl sentAgain hlog⟩

end Courier.Timed
