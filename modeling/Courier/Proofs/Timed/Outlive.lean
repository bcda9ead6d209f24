import Courier.Proofs.Timed.Single

/-!
How long the far end has to keep an incomplete message. A chunk that is new to it starts
its clock anew, an acknowledgement that of the near end. A repeated chunk does not, although
the timeout is meant for messages of which no chunk arrives at all. So acknowledgements of
chunks that are at the far end already may come in late, one by one, each at the last moment
before the message would be given up: `Config.linger` is how long that can go on.
-/

namespace Courier

namespace Config

instance (c : Config) : Decidable c.Resends := inferInstanceAs (Decidable (_ < _))

/-- Ticks without progress that a message outlasts. -/
def spareTicks (c : Config) : Nat := max 1 c.resendThreshold - 1

/-- How many chunks of an incomplete message can be at the far end and wait for an
acknowledgement that is still to come. -/
def lateAnswers (c : Config) (chunks : Nat) : Nat :=
  if c.Resends then min c.maxFlight (chunks - 1) else 0

/-- How long a message can stay in the queue after the far end got a chunk that was new
to it, in nanoseconds. -/
def linger (c : Config) (chunks : Nat) : Nat :=
  (c.spareTicks * (c.lateAnswers chunks + 1) + 1) * c.resendInterval.nanos

/-- The far end keeps an incomplete message longer than its sender keeps it in the
queue. -/
def Outlives (c : Config) (chunks : Nat) : Prop := c.linger chunks < c.inboundTimeout.nanos

instance (c : Config) (chunks : Nat) : Decidable (c.Outlives chunks) :=
  inferInstanceAs (Decidable (_ < _))

end Config

namespace Timed

open Outbound Reassembly

/-- Chunks of an incomplete message that are not acknowledged. -/
def lagging (p : Partial) (m : Message) : List Nat :=
  p.pieces.keys.filter fun i => !m.acked.contains i

theorem mem_lagging {p : Partial} {m : Message} {i : Nat} :
    i ∈ lagging p m ↔ i ∈ p.pieces ∧ i ∉ m.acked := by
  rw [lagging, List.mem_filter, Std.TreeMap.mem_keys, Bool.not_eq_true',
    Message.contains_eq_false]

theorem nodup_lagging (p : Partial) (m : Message) : (lagging p m).Nodup :=
  Std.TreeMap.nodup_keys.filter _

theorem lagging_insert (p : Partial) (m m' : Message) (i : Nat)
    (ha : m'.acked = m.acked.insert i) : lagging p m' = (lagging p m).erase i := by
  rw [lagging, lagging, ha]
  exact filter_insert m.acked i Std.TreeMap.nodup_keys

/-- An acknowledgement starts the clock of the near end anew, and there is one less to
come. -/
theorem due_le_of_answer {due since late lag stalled spare i : Nat}
    (h : due ≤ since + (spare * (late - lag) + stalled + 1) * i) (hs : stalled ≤ spare)
    (hpos : 0 < lag) (hle : lag ≤ late) :
    due ≤ since + (spare * (late - (lag - 1)) + 0 + 1) * i := by
  have hone : late - (lag - 1) = late - lag + 1 := by omega
  refine Nat.le_trans h (Nat.add_le_add_left (Nat.mul_le_mul_right i ?_) since)
  rw [hone, Nat.mul_succ]
  omega

theorem due_le_linger {due since late lag stalled spare i : Nat}
    (h : due ≤ since + (spare * (late - lag) + stalled + 1) * i) (hs : stalled ≤ spare) :
    due ≤ since + (spare * (late + 1) + 1) * i := by
  have hlate : spare * (late - lag) ≤ spare * late := Nat.mul_le_mul_left _ (Nat.sub_le _ _)
  refine Nat.le_trans h (Nat.add_le_add_left (Nat.mul_le_mul_right i ?_) since)
  rw [Nat.mul_succ]
  omega

/-- A chunk of the message found no room, be it in the buffers or in the range of the
machine. -/
def LacksRoom (n : UInt64) : Link.Fact → Prop
  | .arrived chunk outcome _ =>
    chunk.header.sequence = n ∧ (outcome = .rejected .bufferLimit ∨ outcome = .outOfRange)
  | _ => False

instance (n : UInt64) : (f : Link.Fact) → Decidable (LacksRoom n f)
  | .arrived .. => inferInstanceAs (Decidable (_ ∧ _))
  | .registered .. | .purged .. | .settled .. => inferInstanceAs (Decidable False)

/-- Every chunk of the message found room. -/
def Roomy (n : UInt64) (log : List Link.Fact) : Prop := ∀ f ∈ log, ¬ LacksRoom n f

instance (n : UInt64) (log : List Link.Fact) : Decidable (Roomy n log) :=
  inferInstanceAs (Decidable (∀ f ∈ log, ¬ LacksRoom n f))

/-- What the clocks of both ends have to do with each other as long as a reliable message
is in the queue. -/
structure Lasting (s : Setup) (t : Timed) (n : UInt64) : Prop where
  stalled : ∀ m, t.queue.find? n = some m → m.reliable = true →
    m.stalledTicks ≤ s.config.spareTicks
  due_le : ∀ m p, t.queue.find? n = some m → m.reliable = true →
    t.table.find? (s.here, n) = some p →
    t.due ≤ p.lastSeen + (s.config.spareTicks * (s.config.lateAnswers m.total -
      (lagging p m).length) + m.stalledTicks + 1) * s.interval
  /-- an acknowledgement that comes later than its chunk is for a chunk that the far end
  still has -/
  answers : ∀ (ack : Chunk.Header) p, ack.Valid → Chunk.packet ack [] ∈ t.replies →
    ack.sequence = n → t.table.find? (s.here, n) = some p →
    p.lastSeen = t.now ∨ s.config.Resends ∧ ack.index.toNat ∈ p.pieces

theorem lasting_init (s : Setup) (n : UInt64) : Lasting s (init s) n where
  stalled := by simp [init, queue, Link.init, Datagram.Channel.ofConfig, Queue.find?]
  due_le := by simp [init, queue, Link.init, Datagram.Channel.ofConfig, Queue.find?]
  answers := by simp [init]

section

variable {s : Setup} {t t' : Timed} {n : UInt64}

/-- Not all chunks of an incomplete message are there, and not more can wait for an
acknowledgement than may be in flight. -/
theorem Sound.length_lagging_le (hs : Sound s t) (hr : s.config.Resends) {m : Message}
    {p : Partial} (hm : t.queue.find? n = some m) (hrel : m.reliable = true)
    (hp : t.table.find? (s.here, n) = some p) :
    (lagging p m).length ≤ s.config.lateAnswers m.total := by
  have hsound := hs.queue.message hm
  have hflight : (lagging p m).length ≤ s.config.maxFlight := by
    have hsub : lagging p m ⊆ m.unacked := fun i hi => by
      obtain ⟨hi, hna⟩ := mem_lagging.mp hi
      exact Message.mem_unacked.mpr ⟨hs.near.lt_of_came hm (hs.far.came_of_mem hp hi), hna⟩
    calc (lagging p m).length
        ≤ m.unacked.length := (List.subperm_of_subset (nodup_lagging p m) hsub).length_le
      _ = m.outstanding := (hsound.outstanding_eq hrel).symm
      _ ≤ t.queue.maxFlight := hsound.outstanding_le hrel
      _ = s.config.maxFlight := hs.flight
  have hmissing : (lagging p m).length ≤ m.total - 1 := by
    have hlt := (hs.table.partials _ p hp).size_lt
    rw [hs.far.total_eq hs.near hp hm] at hlt
    have hle : (lagging p m).length ≤ p.pieces.keys.length := List.length_filter_le _ _
    rw [Std.TreeMap.length_keys] at hle
    omega
  unfold Config.lateAnswers
  rw [if_pos hr]
  exact Nat.le_min.mpr ⟨hflight, hmissing⟩

theorem Lasting.stalled_step (h : Lasting s t n) (hs : Sound s t) (hst : Steps s t t')
    {m' : Message} (hm' : t'.queue.find? n = some m') (hrel : m'.reliable = true) :
    m'.stalledTicks ≤ s.config.spareTicks := by
  cases hst.fate hs hm' with
  | entered _ _ ticks => exact ticks ▸ Nat.zero_le _
  | stayed found => exact h.stalled m' found hrel
  | emitted m found out emits =>
    exact emits.stalledTicks_eq ▸ h.stalled m found (emits.kin.reliable ▸ hrel)
  | written m found written =>
    subst written
    exact h.stalled m found hrel
  | acknowledged m found ack _ _ _ taken =>
    rw [(Message.acknowledge?_eq_some_iff.mp taken).2]
    exact Nat.zero_le _
  | ticked m found tick ticks =>
    unfold Config.spareTicks
    cases ticks with
    | unfinished kind => exact absurd hrel (by simp [kind])
    | again kind early | waits kind early =>
      show m.stalledTicks + 1 ≤ _
      omega

/-- The number of a message of which the far end has something is not given again. -/
theorem Sound.not_entered_of_find? (hs : Sound s t) {p : Partial}
    (hp : t.table.find? (s.here, n) = some p) : n ≠ t.queue.nextNumber := by
  obtain ⟨i, b, hb⟩ := hs.far.exists_brought hp
  exact hs.not_entered hb.came

theorem Lasting.due_le_step (h : Lasting s t n) (hs : Sound s t) (hst : Steps s t t')
    {m' : Message} {p' : Partial} (hm' : t'.queue.find? n = some m') (hrel : m'.reliable = true)
    (hp' : t'.table.find? (s.here, n) = some p') :
    t'.due ≤ p'.lastSeen + (s.config.spareTicks * (s.config.lateAnswers m'.total -
      (lagging p' m').length) + m'.stalledTicks + 1) * s.interval := by
  -- a chunk that has just come leaves one interval and more
  have hfresh : p'.lastSeen = t'.now → t'.due ≤ p'.lastSeen + (s.config.spareTicks *
      (s.config.lateAnswers m'.total - (lagging p' m').length) + m'.stalledTicks + 1) *
        s.interval := fun hnow => by
    rw [hnow]
    exact Nat.le_trans (hs.step hst).due_le
      (Nat.add_le_add_left (Nat.le_mul_of_pos_left _ (Nat.succ_pos _)) _)
  rcases hst.find? hs hp' with hp | ⟨o, _, _, rfl, hnow⟩
  swap
  · exact hfresh hnow.symm
  cases hst.fate hs hm' with
  | entered new => exact absurd new (hs.not_entered_of_find? hp)
  | stayed found due => exact due ▸ h.due_le m' p' found hrel hp
  | emitted m found out emits due =>
    have hold := h.due_le m p' found (emits.kin.reliable ▸ hrel) hp
    rw [due, emits.stalledTicks_eq, emits.kin.total]
    unfold lagging
    rw [emits.grows.2]
    exact hold
  | written m found written due =>
    subst written
    exact due ▸ h.due_le m p' found hrel hp
  | acknowledged m found ack valid reply same taken due =>
    obtain ⟨⟨hr, _, _, hna⟩, hm'⟩ := Message.acknowledge?_eq_some_iff.mp taken
    rcases h.answers ack p' valid reply same hp with hnow | ⟨hresends, hi⟩
    · exact hfresh (hnow.trans (hst.now_eq reply).symm)
    · have hmem : ack.index.toNat ∈ lagging p' m := mem_lagging.mpr ⟨hi, hna⟩
      have hlag : (lagging p' m').length = (lagging p' m).length - 1 := by
        rw [lagging_insert p' m m' ack.index.toNat (by rw [hm']), List.length_erase_of_mem hmem]
      have hstalled : m'.stalledTicks = 0 := by rw [hm']
      rw [due, hlag, hstalled, (Message.kin_of_acknowledge? taken).total]
      exact due_le_of_answer (h.due_le m p' found hr hp) (h.stalled m found hr)
        (List.length_pos_of_mem hmem) (hs.length_lagging_le hresends found hr hp)
  | ticked m found tick ticks due =>
    have hold := h.due_le m p' found (ticks.kin.reliable ▸ hrel) hp
    have hlag : lagging p' m' = lagging p' m := by
      unfold lagging
      rw [ticks.same.2]
    have hstalled : m'.stalledTicks = m.stalledTicks + 1 := by
      cases ticks with
      | unfinished kind => exact absurd hrel (by simp [kind])
      | again | waits => rfl
    rw [due, hlag, hstalled, ticks.kin.total]
    exact due_le_tick hold

/-- What is acknowledged is new to the far end, or was sent again. -/
theorem Sound.answer_of_arrived (hs : Sound s t) (hsingle : Single s t) {o : Outgoing}
    (ho : o ∈ t.flying) (hroom : Roomy o.header.sequence (t.link.received s.link o t.now).log)
    {p : Partial}
    (hp : (t.link.insert s.link o t.now).2.find? (s.link.here, o.header.sequence) = some p) :
    p.lastSeen = t.now ∨ s.config.Resends ∧ o.header.index.toNat ∈ p.pieces := by
  have hins := hs.near.inserts (hs.flying ho) t.now
  have hfirst := hroom _ List.mem_cons_self
  generalize t.link.insert s.link o t.now = result at hins hp hfirst
  obtain ⟨outcome, r⟩ := result
  dsimp only at hins hp hfirst
  cases hins with
  | known done =>
    have hnone := hs.table.apart _ p hp
    exact absurd hnone (Option.isSome_iff_ne_none.mp done)
  | held unfinished present =>
    obtain ⟨p', hp', hi⟩ := find?_of_mem_target present
    cases hp'.symm.trans hp
    refine Or.inr ⟨?_, hi⟩
    by_contra hr
    exact hsingle.fresh o ho (Or.inr hr) (hs.far.came_of_mem hp hi)
  | refused reason unfinished fault =>
    exact (hs.far.not_refused hs.near (hs.flying ho) fault).elim
  | crowded => exact absurd ⟨rfl, Or.inl rfl⟩ hfirst
  | beyond => exact absurd ⟨rfl, Or.inr rfl⟩ hfirst
  | stored =>
    rw [find?_keep, if_pos rfl] at hp
    cases hp
    exact Or.inl rfl
  | completed => simp [find?_finish] at hp

theorem Lasting.answers_step (h : Lasting s t n) (hs : Sound s t) (hsingle : Single s t)
    (hst : Steps s t t') (hroom : Roomy n t'.link.log) {ack : Chunk.Header} {p' : Partial}
    (hv : ack.Valid) (hb : Chunk.packet ack [] ∈ t'.replies) (hn : ack.sequence = n)
    (hp' : t'.table.find? (s.here, n) = some p') :
    p'.lastSeen = t'.now ∨ s.config.Resends ∧ ack.index.toNat ∈ p'.pieces := by
  rcases hst.replies hb with hb | ⟨o, ho, hreply, hlink, hnow⟩
  · rcases hst.find? hs hp' with hp | ⟨o, _, _, rfl, hnow⟩
    · rw [hst.now_eq hb]
      exact h.answers ack p' hv hb hn hp
    · exact Or.inl hnow.symm
  · rw [hs.eq_toAck_of_reply ho hv hreply] at hn ⊢
    change o.header.sequence = n at hn
    subst hn
    rw [hlink] at hroom
    rw [hnow]
    exact hs.answer_of_arrived hsingle ho hroom (by rwa [table, hlink] at hp')

theorem Lasting.step (h : Lasting s t n) (hs : Sound s t) (hsingle : Single s t)
    (hst : Steps s t t') (hroom : Roomy n t'.link.log) : Lasting s t' n where
  stalled := fun _ hm' => h.stalled_step hs hst hm'
  due_le := fun _ _ hm' => h.due_le_step hs hst hm'
  answers := fun _ _ => h.answers_step hs hsingle hst hroom

theorem Lasting.young (h : Lasting s t n) (hs : Sound s t) {m : Message} {p : Partial}
    (hm : t.queue.find? n = some m) (hrel : m.reliable = true)
    (hp : t.table.find? (s.here, n) = some p) (hlife : s.config.Outlives m.total) :
    t.now - p.lastSeen < s.config.inboundTimeout.nanos := by
  have hdue : t.due ≤ p.lastSeen + s.config.linger m.total :=
    due_le_linger (h.due_le m p hm hrel hp) (h.stalled m hm hrel)
  have hnow : t.now ≤ p.lastSeen + s.config.linger m.total := Nat.le_trans hs.now_le hdue
  exact Nat.lt_of_le_of_lt (Nat.sub_le_iff_le_add'.mpr hnow) hlife

/-- A purge does not take it. -/
theorem Lasting.not_discarded (h : Lasting s t n) (hs : Sound s t) {m : Message}
    (hm : t.queue.find? n = some m) (hrel : m.reliable = true)
    (hlife : s.config.Outlives m.total) : (s.here, n) ∉ Link.discarded t.table
      (t.table.purge t.now s.config.inboundTimeout s.config.completedRetention).2 := by
  intro hd
  obtain ⟨⟨p, hp⟩, hnone⟩ := Link.mem_discarded.mp hd
  rw [hs.table.find?_purge, hp, Option.filter_some,
    if_pos (decide_eq_true (h.young hs hm hrel hp hlife))] at hnone
  cases hnone

/-! ## The whole run -/

/-- A purge has discarded what the far end had of a message. -/
def Discarded (s : Setup) (n : UInt64) (log : List Link.Fact) : Prop :=
  ∃ discarded forgotten, .purged discarded forgotten ∈ log ∧ (s.here, n) ∈ discarded

/-- A purge has forgotten that a message was completed. -/
def Forgotten (s : Setup) (n : UInt64) (log : List Link.Fact) : Prop :=
  ∃ discarded forgotten, .purged discarded forgotten ∈ log ∧ (s.here, n) ∈ forgotten

structure Outliving (s : Setup) (n : UInt64) (t : Timed) : Prop where
  single : Single s t
  lasting : Roomy n t.link.log → Lasting s t n
  came : Discarded s n t.link.log → ∃ i, Link.Came n i t.link.log
  completed : Forgotten s n t.link.log → Link.Completed n t.link.log
  kept : Roomy n t.link.log → ∀ m, t.queue.find? n = some m → m.reliable = true →
    s.config.Outlives m.total → ¬ Discarded s n t.link.log

theorem outliving_init (s : Setup) (n : UInt64) : Outliving s n (init s) where
  single := single_init s
  lasting := fun _ => lasting_init s n
  came := by simp [init, Link.init, Discarded]
  completed := by simp [init, Link.init, Forgotten]
  kept := by simp [init, Link.init, Discarded]

theorem Outliving.step (h : Outliving s n t) (hs : Sound s t) (hst : Steps s t t') :
    Outliving s n t' where
  single := h.single.step hs hst
  lasting := fun hroom => (h.lasting fun f hf => hroom f (hst.log_subset hs hf)).step hs h.single
    hst hroom
  came := by
    rintro ⟨d, f, hm, hd⟩
    rcases hst.of_purged hm with hm | ⟨⟨rfl, rfl⟩, _⟩
    · exact (h.came ⟨d, f, hm, hd⟩).imp fun _ hc => hc.mono (hst.log_subset hs)
    · obtain ⟨⟨p, hp⟩, _⟩ := Link.mem_discarded.mp hd
      obtain ⟨i, b, hb⟩ := hs.far.exists_brought hp
      exact ⟨i, hb.came.mono (hst.log_subset hs)⟩
  completed := by
    rintro ⟨d, f, hm, hf⟩
    rcases hst.of_purged hm with hm | ⟨⟨rfl, rfl⟩, _⟩
    · exact (h.completed ⟨d, f, hm, hf⟩).mono (hst.log_subset hs)
    · obtain ⟨⟨since, hsince⟩, _⟩ := Link.mem_forgotten.mp hf
      exact (hs.far.done _ since hsince).2.mono (hst.log_subset hs)
  kept := by
    rintro hroom m' hm' hrel hlife ⟨d, f, hm, hd⟩
    have hroom : Roomy n t.link.log := fun f hf => hroom f (hst.log_subset hs hf)
    rcases hst.of_purged hm with hm | ⟨⟨rfl, rfl⟩, hqueue, htable⟩
    · rcases (hst.fate hs hm').kin with new | ⟨m, found, hkin⟩
      · obtain ⟨i, hc⟩ := h.came ⟨d, f, hm, hd⟩
        exact hs.not_entered hc new
      · rw [hkin.total] at hlife
        exact h.kept hroom m found (hkin.reliable ▸ hrel) hlife ⟨d, f, hm, hd⟩
    · rw [hqueue] at hm'
      rw [htable] at hd
      exact (h.lasting hroom).not_discarded hs hm' hrel hlife hd

/-- A message that an acknowledgement takes out of the queue was delivered. -/
theorem Outliving.settled (h : Outliving s n t) (hs : Sound s t) {m : Message}
    (hm : t.queue.find? n = some m) (hrel : m.reliable = true)
    (hlife : s.config.Outlives m.total) (hroom : Roomy n t.link.log) {ack : Chunk.Header}
    (hb : Chunk.packet ack [] ∈ t.replies) (hv : ack.Valid)
    (hgone : n ∈ t.queue.gone (t.queue.acknowledge ack).2) : Link.Completed n t.link.log := by
  by_contra hc
  refine hc (hs.far.settled hs.near (hs.replies hb) hv hgone fun f hf => ?_)
  cases f with
  | arrived => exact hroom _ hf
  | purged d g =>
    rintro (hd | hg)
    · exact h.kept hroom m hm hrel hlife ⟨d, g, hf, hd⟩
    · exact hc (h.completed ⟨d, g, hf, hg⟩)
  | registered | settled => exact id

/-- As long as a reliable message is in the queue, the far end keeps what it has of it, and
if an acknowledgement takes the message out of the queue, it was delivered: with settings
that keep incomplete messages long enough, and room for all chunks of the message. -/
theorem outlives_run (s : Setup) (events : List Event) {n : UInt64} {m : Message}
    (hm : (run s events).queue.find? n = some m) (hrel : m.reliable = true)
    (hlife : s.config.Outlives m.total) (hroom : Roomy n (run s events).link.log) :
    (s.here, n) ∉
        Link.discarded (run s events).table (step s (run s events) .purge).table ∧
      ∀ place, n ∈ (run s events).queue.gone (step s (run s events) (.acknowledge place)).queue →
        Link.Completed n (run s events).link.log := by
  obtain ⟨hs, h⟩ := run_of_steps (outliving_init s n) (fun _ _ hs hst h => h.step hs hst) events
  generalize run s events = t at hm hroom hs h
  constructor
  · by_cases hdue : t.purgeDue.all (t.now == ·) = true
    · simp only [step, if_pos hdue]
      exact (h.lasting hroom).not_discarded hs hm hrel hlife
    · simp only [step, if_neg hdue]
      intro hd
      obtain ⟨⟨p, hp⟩, hnone⟩ := Link.mem_discarded.mp hd
      cases hp.symm.trans hnone
  · intro place hgone
    cases hb : t.replies[place]? with
    | none =>
      simp only [step, hb] at hgone
      obtain ⟨_, hnone⟩ := (Queue.mem_gone hs.queue).mp hgone
      cases hm.symm.trans hnone
    | some b =>
      have hmem := List.mem_of_getElem? hb
      obtain ⟨ack, hv, rfl, heq⟩ := Link.acknowledge_eq (hs.near.reply b (hs.replies hmem)) t.now
      simp only [step, hb, heq] at hgone
      exact h.settled hs hm hrel hlife hroom hmem hv hgone

end

/-! ## Settings that keep a message long enough, and settings that do not -/

/-- Chunks of one byte; both ends tick each second, and the near end sends promptly. -/
def everySecond (timeout : Duration) : Setup where
  config := { packetSize := 14, inboundTimeout := timeout }
  here := { ip := .v4 127 0 0 1, port := 7000 }
  there := { ip := .v4 127 0 0 1, port := 7001 }
  first := Duration.perSecond
  first_le := Nat.le_refl _
  firstPurge := some Duration.perSecond
  firstPurge_le := fun _ h => Nat.le_of_eq (Option.some.inj h).symm
  prompt := true

/-- The timeout of the defaults. -/
def usual : Setup := everySecond (.ofSeconds 10)

/-- A timeout that is shorter than the time for which messages are sent again. -/
def hasty : Setup := everySecond (.ofSeconds 1)

/-- One second later both ends tick, and some chunks are sent again. -/
def nextSecond (chunks : Nat) : List Event :=
  [.wait Duration.perSecond, .purge, .tick] ++ List.replicate chunks .pick

/-- They are all lost. -/
def silence (chunks : Nat) : List Event := nextSecond chunks ++ List.replicate chunks (.lose 0)

/-- Only the first of them arrives, and its acknowledgement comes in. -/
def lateAnswer (chunks : Nat) : List Event :=
  nextSecond chunks ++ [.arrive 0, .acknowledge 0] ++ List.replicate (chunks - 1) (.lose 0)

/-- All chunks of a message but the last arrive, and no acknowledgement of them does. -/
def unanswered (data : Bytes) : List Event :=
  .register usual.there data true :: List.replicate data.length .pick ++
    List.replicate (data.length - 1) (.arrive 0) ++ [.lose 0] ++
    List.replicate (data.length - 1) (.loseReply 0)

/-- Of two chunks one is there for nine seconds. -/
def nineSeconds : List Event :=
  unanswered [1, 2] ++ silence 2 ++ silence 2 ++ silence 2 ++ lateAnswer 2 ++ silence 1 ++
    silence 1 ++ silence 1 ++ silence 1 ++ [.wait Duration.perSecond]

theorem outlives_nineSeconds :
    ∃ m, (run usual nineSeconds).queue.find? 0 = some m ∧ m.reliable = true ∧
      usual.config.Outlives m.total ∧ Roomy 0 (run usual nineSeconds).link.log ∧
      (usual.here, 0) ∉ Link.discarded (run usual nineSeconds).table
        (step usual (run usual nineSeconds) .purge).table ∧
      ∀ place, 0 ∈ (run usual nineSeconds).queue.gone
          (step usual (run usual nineSeconds) (.acknowledge place)).queue →
        Link.Completed 0 (run usual nineSeconds).link.log := by
  have hmessage : ((run usual nineSeconds).queue.find? 0).any
      (fun m => m.reliable && decide (usual.config.Outlives m.total)) = true := by decide +kernel
  have hroom : Roomy 0 (run usual nineSeconds).link.log := by decide +kernel
  obtain ⟨m, hm, hboth⟩ := (Option.any_eq_true _ _).mp hmessage
  rw [Bool.and_eq_true, decide_eq_true_eq] at hboth
  exact ⟨m, hm, hboth.1, hboth.2, hroom,
    outlives_run usual nineSeconds hm hboth.1 hboth.2 hroom⟩

/-- Accepted settings and a run in which a purge takes what the far end has of a reliable
message that is still in the queue, and after which the message counts as acknowledged
without having been delivered. -/
structure Betrayed (s : Setup) (before after : List Event) (n : UInt64) : Prop where
  accepted : s.config.validate = .ok ()
  regular : s.firstPurge.isSome = true
  queued : ((run s before).queue.find? n).any (·.reliable) = true
  discarded : (s.here, n) ∈
    Link.discarded (run s before).table (step s (run s before) .purge).table
  roomy : Roomy n (run s (before ++ .purge :: after)).link.log
  settled : n ∈ (run s (before ++ .purge :: after)).queue.gone
    (step s (run s (before ++ .purge :: after)) (.acknowledge 0)).queue
  undelivered : ¬ Link.Completed n (run s (before ++ .purge :: after)).link.log

/-- Of two chunks the first arrives and is acknowledged, and is one second old. -/
def oneSecond : List Event :=
  [.register hasty.there [1, 2] true, .pick, .pick, .arrive 0, .acknowledge 0, .lose 0,
    .wait Duration.perSecond]

/-- Of three chunks two are there for ten seconds, and each of them arrives once more, after
four seconds and after eight. -/
def tenSeconds : List Event :=
  unanswered [1, 2, 3] ++ silence 3 ++ silence 3 ++ silence 3 ++ lateAnswer 3 ++ silence 2 ++
    silence 2 ++ silence 2 ++ lateAnswer 2 ++ silence 1 ++ [.wait Duration.perSecond]

/-- The last chunk is sent again and arrives. -/
def lastArrives : List Event := [.tick, .pick, .arrive 0]

/-- A timeout below the time for which messages are sent again is not enough, and neither
is one that is twice as long, even though chunks keep arriving. -/
theorem betrayed_hasty_usual :
    Betrayed hasty oneSecond lastArrives 0 ∧ Betrayed usual tenSeconds lastArrives 0 := by
  constructor
  · exact ⟨rfl, rfl, by decide +kernel, by decide +kernel, by decide +kernel, by decide +kernel,
      by decide +kernel⟩
  · exact ⟨rfl, rfl, by decide +kernel, by decide +kernel, by decide +kernel, by decide +kernel,
      by decide +kernel⟩

end Timed

end Courier
