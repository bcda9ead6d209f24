import Courier.Proofs.Link.Far

/-!
What arrives is what was sent: whole messages carry the registered bytes, a message that
nothing disturbs is delivered once and with its last missing chunk, and what the near end
takes for acknowledged was delivered.
-/

namespace Courier.Link

open Outbound Reassembly

/-! ## Facts and what was known before them -/

/-- Each fact of a log fits the facts before it. -/
def Always (P : Fact → List Fact → Prop) (log : List Fact) : Prop :=
  ∀ later f earlier, log = later ++ f :: earlier → P f earlier

theorem always_cons {P : Fact → List Fact → Prop} {f : Fact} {log : List Fact} (hf : P f log)
    (h : Always P log) : Always P (f :: log) := by
  intro later g earlier heq
  cases later with
  | nil =>
    obtain ⟨rfl, rfl⟩ := List.cons.inj heq
    exact hf
  | cons x later => exact h later g earlier (List.cons.inj heq).2

/-- A step adds at most one fact. -/
theorem Steps.log_eq {s : Setup} {l l' : Link} {e : Event} (h : Steps s l e l') :
    l'.log = l.log ∨ ∃ f, l'.log = f :: l.log := by
  cases h <;> first | exact Or.inl rfl | exact Or.inr ⟨_, rfl⟩

/-- What each step makes sure of for the fact that it adds holds of the whole log. -/
theorem always_run {P : Fact → List Fact → Prop} (s : Setup)
    (hP : ∀ l e l', Near s l → Far s l → Steps s l e l' → ∀ f, l'.log = f :: l.log → P f l.log)
    (events : List Event) : Always P (run s events).log := by
  induction events using List.reverseRecOn with
  | nil =>
    intro later f earlier heq
    exact absurd heq (by simp [run, init])
  | append_singleton events e ih =>
    obtain ⟨hn, hf⟩ := sound_run s events
    have hs := hn.steps e
    rw [run_append]
    rcases hs.log_eq with heq | ⟨f, heq⟩
    · rw [heq]
      exact ih
    · rw [heq]
      exact always_cons (hP _ e _ hn hf hs f heq) ih

/-! ## The last missing chunk -/

section

variable {s : Setup} {l l' : Link} {e : Event}

/-- The chunk is the only one of its message that has not come. -/
def LastMissing (o : Outgoing) (log : List Fact) : Prop :=
  ¬ Came o.header.sequence o.header.index.toNat log ∧
    ∀ i < o.header.total.toNat, i ≠ o.header.index.toNat → Came o.header.sequence i log

/-- A completed message has had all its chunks. -/
theorem Far.came_of_completed (hf : Far s l) (hn : Near s l) {o : Outgoing} (ho : o ∈ l.sent)
    (hc : Completed o.header.sequence l.log) {i : Nat} (hi : i < o.header.total.toNat) :
    Came o.header.sequence i l.log := by
  obtain ⟨o', data, d, hm, hs⟩ := hc
  have hsent := (hn.travelled o' _ d hm).1
  obtain ⟨_, ht⟩ := hn.same_header (hn.genuine o' hsent) (hn.genuine o ho) hs
  have := (hf.delivered o' data d hm).2 i (by rw [ht]; exact hi)
  rwa [hs] at this

theorem Far.timely (hf : Far s l) (hn : Near s l) {o : Outgoing} (ho : o ∈ l.sent) (now : Instant)
    {d : Option Received}
    (hu : Undisturbed s o.header.sequence (.arrived o (l.insert s o now).1 d :: l.log)) :
    (∃ data, (l.insert s o now).1 = .complete data) ↔ LastMissing o l.log := by
  have hv := hn.valid ho
  have hlt : o.header.index.toNat < o.header.total.toNat := UInt16.lt_iff_toNat_lt.mp hv
  have hins := hn.inserts ho now
  have hincomplete : l.far.inbound.completed.lookup (s.here, o.header.sequence) = none →
      ¬ Completed o.header.sequence l.log := fun hnone hc => by
    have := hf.finished _ hu.tail hc
    rw [hnone] at this
    cases this
  have hcame : ∀ {i}, i ∈ (l.far.inbound.target (s.here, o.header.sequence) o.header now).pieces →
      Came o.header.sequence i l.log := fun hi => by
    obtain ⟨p, hp, hmem⟩ := find?_of_mem_target hi
    exact hf.came_of_mem hp hmem
  generalize l.insert s o now = result at hins hu
  obtain ⟨outcome, r⟩ := result
  dsimp only at hins hu ⊢
  cases hins with
  | known done =>
    obtain ⟨t, ht⟩ := Option.isSome_iff_exists.mp done
    have := hf.came_of_completed hn ho (hf.done _ t ht).2 hlt
    exact ⟨by simp, fun h => absurd this h.1⟩
  | held unfinished present => exact ⟨by simp, fun h => absurd (hcame present) h.1⟩
  | refused reason unfinished fault => exact (hf.not_refused hn ho fault).elim
  | crowded => exact absurd ⟨rfl, Or.inl rfl⟩ (hu _ List.mem_cons_self)
  | beyond => exact absurd ⟨rfl, Or.inr rfl⟩ (hu _ List.mem_cons_self)
  | stored acceptable room missing =>
    refine ⟨by simp, fun h => absurd missing (Nat.not_lt.mpr (Partial.le_size fun i hi => ?_))⟩
    rw [mem_filled]
    by_cases hio : i = o.header.index.toNat
    · exact Or.inl hio.symm
    · obtain ⟨p, hp, hmem⟩ :=
        hf.whole _ hu.tail (hincomplete acceptable.unfinished) i (h.2 i hi hio)
      exact Or.inr (target_eq hp ▸ hmem)
  | completed acceptable room all =>
    refine ⟨fun _ => ⟨fun hc => ?_, fun i hi hio => ?_⟩, fun _ => ⟨_, rfl⟩⟩
    · obtain ⟨p, hp, hmem⟩ := hf.whole _ hu.tail (hincomplete acceptable.unfinished) _ hc
      exact acceptable.absent (target_eq hp ▸ hmem)
    · have hmem := hf.table.mem_target_of_full hv acceptable all hi
      exact hcame (hmem.resolve_left (Ne.symm hio))

/-! ## What the near end takes for acknowledged -/

/-- An undisturbed message all of whose chunks have come is complete. -/
theorem Far.completed_of_came (hf : Far s l) {n : UInt64} (hu : Undisturbed s n l.log)
    (hfirst : Came n 0 l.log)
    (hall : ∀ p, l.far.inbound.find? (s.here, n) = some p →
      ∀ i < p.total.toNat, Came n i l.log) : Completed n l.log := by
  by_contra hc
  obtain ⟨p, hp, _⟩ := hf.whole _ hu hc 0 hfirst
  have hpieces : ∀ i < p.total.toNat, i ∈ p.pieces := fun i hi => by
    obtain ⟨p', hp', hmem⟩ := hf.whole _ hu hc i (hall p hp i hi)
    cases hp.symm.trans hp'
    exact hmem
  exact Nat.not_lt.mpr (Partial.le_size hpieces) (hf.table.partials _ p hp).size_lt

theorem Far.settled (hf : Far s l) (hn : Near s l) {ack : Chunk.Header}
    (hb : Chunk.packet ack [] ∈ l.acks) (hv : ack.Valid) {n : UInt64}
    (hgone : n ∈ l.near.outbound.gone (l.near.outbound.acknowledge ack).2)
    (hu : Undisturbed s n l.log) : Completed n l.log := by
  obtain ⟨rfl, m, hm, _, hall⟩ := Queue.settled_of_gone hn.queue hgone
  have hcame : ∀ i < m.total, Came ack.sequence i l.log := fun i hi => by
    rcases hall i hi with rfl | hi
    · exact hn.came_of_ack hb hv
    · exact hn.acked _ m i hm hi
  have hpos : 0 < m.total := Nat.lt_of_le_of_lt (Nat.zero_le _) (hn.queue.message hm).not_allAcked
  exact hf.completed_of_came hu (hcame 0 hpos) fun p hp i hi =>
    hcame i (hf.total_eq hn hp hm ▸ hi)

/-! ## Chunks and deliveries -/

/-- A chunk is one of those that a registered message was cut into. -/
def Belongs (s : Setup) (o : Outgoing) (log : List Fact) : Prop :=
  ∃ data reliable, .registered o.header.sequence s.there data reliable ∈ log ∧
    Chunk.count? data.length s.far.chunkSize = some o.header.total.toNat ∧
    o.header.index.toNat < o.header.total.toNat ∧
    o.payload = (data.drop (o.header.index.toNat * s.far.chunkSize)).take s.far.chunkSize

theorem Near.belongs (hn : Near s l) {o : Outgoing} (ho : o ∈ l.sent) (hd : o.dest = s.there) :
    Belongs s o l.log := by
  have hv := UInt16.lt_iff_toNat_lt.mp (hn.valid ho)
  obtain ⟨m, i, resent, ⟨data, hreg, hcut⟩, hi, rfl⟩ := hn.genuine o ho
  rw [show m.dest = s.there from hd] at hreg
  refine ⟨data, m.reliable, hreg, ?_, hv, ?_⟩
  · rw [Message.header_chunk, hcut.toNat_total]
    exact hcut.count?_eq
  · rw [Message.header_chunk, hcut.toNat_index hi]
    exact hcut.cut.piece i

/-- A delivery takes a message that is not remembered as completed. -/
theorem Far.once (hf : Far s l) (hn : Near s l) {o : Outgoing} (ho : o ∈ l.sent) {now : Instant}
    {data : Bytes} (hc : (l.insert s o now).1 = .complete data)
    (hu : Undisturbed s o.header.sequence l.log) : ¬ Completed o.header.sequence l.log := by
  intro hdone
  have hsome := hf.finished _ hu hdone
  obtain ⟨acceptable, _⟩ := (hn.inserts ho now).of_complete hc
  rw [acceptable.unfinished] at hsome
  cases hsome

/-- With settings that fit the machine no chunk is beyond its range. -/
theorem Far.inRange (hf : Far s l) (hn : Near s l) {o : Outgoing} (ho : o ∈ l.sent) (now : Instant)
    (hfit : s.far.maxPartialBytes + Chunk.maxCount * s.far.chunkSize ≤ sizeMax) :
    (l.insert s o now).1 ≠ .outOfRange := by
  have hins := hn.inserts ho now
  have hstop : o.header.index.toNat * l.far.inbound.chunkSize + o.payload.length ≤
      Chunk.maxCount * s.far.chunkSize := by
    obtain ⟨m, i, resent, ⟨data, _, hm⟩, hi, rfl⟩ := hn.genuine o ho
    have hle := hm.length_le i
    have htotal := hm.total_le
    rw [hf.size, Message.header_chunk, hm.toNat_index hi]
    calc i * s.far.chunkSize + (m.pieces.getD i []).length
        ≤ i * s.far.chunkSize + s.far.chunkSize := Nat.add_le_add_left hle _
      _ = (i + 1) * s.far.chunkSize := (Nat.succ_mul _ _).symm
      _ ≤ Chunk.maxCount * s.far.chunkSize := Nat.mul_le_mul_right _ (by omega)
  have hbuffered := hf.table.buffered_le
  have hlimit := hf.limit
  have hword : sizeMax < wordMax := by decide
  intro hout
  generalize l.insert s o now = result at hins hout
  obtain ⟨outcome, r⟩ := result
  dsimp only at hins hout
  subst hout
  cases hins with
  | beyond acceptable outside =>
    have hgrowth : l.far.inbound.growth (s.here, o.header.sequence) o.header o.payload now ≤
      o.header.index.toNat * l.far.inbound.chunkSize + o.payload.length := Nat.sub_le _ _
    exact outside ⟨by omega, fun _ => by omega⟩

/-- A fact that tells of an arrival comes from one. -/
theorem Steps.of_arrived {f : Fact} (hs : Steps s l e l') (hl : l'.log = f :: l.log)
    {o : Outgoing} {outcome : Outcome} {d : Option Received} (hf : f = .arrived o outcome d) :
    ∃ now, o ∈ l.sent ∧ o.dest = s.there ∧ outcome = (l.insert s o now).1 ∧
      d = delivery s o outcome := by
  subst hf
  cases hs with
  | arrived place o' now found dest valid =>
    obtain ⟨heq, _⟩ := List.cons.inj hl
    cases heq
    exact ⟨now, List.mem_of_getElem? found, dest, rfl, rfl⟩
  | idle | picked | written | ticked | cancelled => exact absurd hl.symm (List.cons_ne_self _ _)
  | registered | acknowledged | purged => exact absurd (List.cons.inj hl).1 (by simp)

/-- A fact that tells of settled messages comes from an acknowledgement. -/
theorem Steps.of_settled {f : Fact} (hs : Steps s l e l') (hl : l'.log = f :: l.log)
    {numbers : List UInt64} (hf : f = .settled numbers) :
    ∃ ack, Chunk.packet ack [] ∈ l.acks ∧ ack.Valid ∧
      numbers = l.near.outbound.gone (l.near.outbound.acknowledge ack).2 := by
  subst hf
  cases hs with
  | acknowledged place ack now found valid =>
    obtain ⟨heq, _⟩ := List.cons.inj hl
    cases heq
    exact ⟨ack, List.mem_of_getElem? found, valid, rfl⟩
  | idle | picked | written | ticked | cancelled => exact absurd hl.symm (List.cons_ne_self _ _)
  | registered | arrived | purged => exact absurd (List.cons.inj hl).1 (by simp)

end

/-! ## The whole log -/

/-- What a log tells if messages arrive as they were sent. -/
structure Faithful (s : Setup) (log : List Fact) : Prop where
  /-- only chunks of registered messages arrive -/
  chunks : ∀ later o outcome d earlier, log = later ++ .arrived o outcome d :: earlier →
    Belongs s o earlier
  /-- with settings that fit the machine a lack of room is a lack of buffers -/
  inRange : s.far.maxPartialBytes + Chunk.maxCount * s.far.chunkSize ≤ sizeMax →
    ∀ later o outcome d earlier, log = later ++ .arrived o outcome d :: earlier →
      outcome ≠ .outOfRange
  /-- a number stands for one message -/
  unique : ∀ n dest data r dest' data' r', .registered n dest data r ∈ log →
    .registered n dest' data' r' ∈ log → dest = dest' ∧ data = data' ∧ r = r'
  /-- what is delivered are the registered bytes -/
  bytes : ∀ later o data d earlier, log = later ++ .arrived o (.complete data) d :: earlier →
    ∃ reliable, .registered o.header.sequence s.there data reliable ∈ earlier ∧
      d = some ⟨.ofSocketAddr .udp s.here, data, reliable⟩
  /-- a message is delivered with its last missing chunk and not without it -/
  timely : ∀ later o outcome d earlier, log = later ++ .arrived o outcome d :: earlier →
    Undisturbed s o.header.sequence (.arrived o outcome d :: earlier) →
    ((∃ data, outcome = .complete data) ↔ LastMissing o earlier)
  /-- and never a second time -/
  once : ∀ later o data d earlier, log = later ++ .arrived o (.complete data) d :: earlier →
    Undisturbed s o.header.sequence earlier → ¬ Completed o.header.sequence earlier
  /-- a message that counts as acknowledged was delivered before -/
  settled : ∀ later numbers earlier, log = later ++ .settled numbers :: earlier →
    ∀ n ∈ numbers, Undisturbed s n earlier → Completed n earlier

/-- Over a network that loses, delays, reorders and duplicates as it likes. -/
theorem faithful_run (s : Setup) (events : List Event) : Faithful s (run s events).log where
  chunks := fun later o outcome d earlier heq =>
    always_run (P := fun f log => ∀ o outcome d, f = .arrived o outcome d → Belongs s o log) s
      (fun l e l' hn hf hs f hl o outcome d hfo => by
        obtain ⟨_, ho, hd, _⟩ := hs.of_arrived hl hfo
        exact hn.belongs ho hd)
      events later _ earlier heq o outcome d rfl
  inRange := fun hfit later o outcome d earlier heq =>
    always_run (P := fun f _ => ∀ o outcome d, f = .arrived o outcome d → outcome ≠ .outOfRange) s
      (fun l e l' hn hf hs f hl o outcome d hfo => by
        obtain ⟨now, ho, _, rfl, _⟩ := hs.of_arrived hl hfo
        exact hf.inRange hn ho now hfit)
      events later _ earlier heq o outcome d rfl
  unique := (sound_run s events).1.unique
  bytes := fun later o data d earlier heq =>
    always_run (P := fun f log => ∀ o data d, f = .arrived o (.complete data) d →
        Right s log o.header.sequence data d) s
      (fun l e l' hn hf hs f hl o data d hfo => by
        obtain ⟨now, ho, hd, hc, rfl⟩ := hs.of_arrived hl hfo
        exact hf.right hn ho hd now data hc.symm)
      events later _ earlier heq o data d rfl
  timely := fun later o outcome d earlier heq =>
    always_run (P := fun f log => ∀ o outcome d, f = .arrived o outcome d →
        Undisturbed s o.header.sequence (f :: log) →
        ((∃ data, outcome = .complete data) ↔ LastMissing o log)) s
      (fun l e l' hn hf hs f hl o outcome d hfo hu => by
        obtain ⟨now, ho, _, rfl, _⟩ := hs.of_arrived hl hfo
        exact hf.timely hn ho now (hfo ▸ hu))
      events later _ earlier heq o outcome d rfl
  once := fun later o data d earlier heq =>
    always_run (P := fun f log => ∀ o data d, f = .arrived o (.complete data) d →
        Undisturbed s o.header.sequence log → ¬ Completed o.header.sequence log) s
      (fun l e l' hn hf hs f hl o data d hfo hu => by
        obtain ⟨now, ho, _, hc, _⟩ := hs.of_arrived hl hfo
        exact hf.once hn ho hc.symm hu)
      events later _ earlier heq o data d rfl
  settled := fun later numbers earlier heq =>
    always_run (P := fun f log => ∀ numbers, f = .settled numbers →
        ∀ n ∈ numbers, Undisturbed s n log → Completed n log) s
      (fun l e l' hn hf hs f hl numbers hfn n hmem hu => by
        obtain ⟨ack, hb, hv, rfl⟩ := hs.of_settled hl hfn
        exact hf.settled hn hb hv hmem hu)
      events later _ earlier heq numbers rfl

end Courier.Link
