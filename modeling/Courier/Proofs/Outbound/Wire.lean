import Courier.Proofs.Link.Steps
import Courier.Proofs.Outbound.Departure
import Mathlib.Algebra.Order.Floor.Div

/-!
What goes on the wire. Main statement: in any run, every chunk that is picked goes where its
message was registered to, is read back from its packet as it was meant, carries its part of
the registered bytes, and has the length that the receiver asks for; the chunks of a message
go out in order, each once; and a chunk goes out again only if it is one of a reliable message
that went out before and that no acknowledgement since then has named.
-/

namespace Courier.Outbound

/-! ## One chunk -/

/-- What the receiver of a chunk needs: it is chunk `index` of `total` of these bytes, and
nothing is wrong with it. -/
structure Carries (cs : Nat) (data : Bytes) (reliable : Bool) (o : Outgoing) : Prop where
  length_packet : o.packet.length ≤ Chunk.Header.size + cs
  decode : Chunk.Header.decode o.packet = .ok (o.header, o.payload)
  index_lt : o.header.index < o.header.total
  total : o.header.total.toNat = data.length ⌈/⌉ cs
  kind : o.header.kind = if reliable then .data else .lowPriority
  payload : o.payload = data.extract (o.header.index.toNat * cs)
    (min ((o.header.index.toNat + 1) * cs) data.length)
  accepted : ∀ r : Reassembly, r.chunkSize = cs → ∃ isLast, o.header.isLast? = some isLast ∧
    r.lengthFault isLast o.payload.length = none

theorem Message.CutFrom.carries {cs : Nat} {data : Bytes} {m : Message} (h : m.CutFrom cs data)
    {i : Nat} (hi : i < m.total) (resent : Bool) :
    Carries cs data m.reliable (m.chunk i resent) where
  length_packet := by
    rw [Outgoing.packet, Chunk.Header.length_packet]
    exact Nat.add_le_add_left (h.length_le i) _
  decode := Chunk.Header.decode_packet (h.valid hi) _
  index_lt := h.valid hi
  total := by
    rw [header_chunk, h.toNat_total, Nat.ceilDiv_eq_add_pred_div]
    have hcount := h.count?_eq
    rw [Chunk.count?, if_neg (Nat.ne_of_gt h.cut.pos)] at hcount
    rw [← Option.some.inj hcount, Nat.add_sub_assoc h.cut.pos]
  kind := rfl
  payload := by
    rw [header_chunk, h.toNat_index hi, List.extract_eq_take_drop]
    show m.pieces.getD i [] = _
    rw [h.cut.piece, List.take_eq_take_iff, List.length_drop, Nat.succ_mul]
    omega
  accepted r hr := by
    have hlast := Chunk.Header.isLast?_eq (h.valid hi)
    rw [h.toNat_index hi, h.toNat_total] at hlast
    exact ⟨_, hlast, Link.lengthFault_chunk h hi hr⟩

/-- Two chunks that carry the same part of the same bytes differ at most in whether they are
sent again. -/
theorem Carries.eq {cs : Nat} {data : Bytes} {reliable : Bool} {o o' : Outgoing}
    (h : Carries cs data reliable o) (h' : Carries cs data reliable o') (dest : o'.dest = o.dest)
    (sequence : o'.header.sequence = o.header.sequence)
    (index : o'.header.index.toNat = o.header.index.toNat) :
    o' = { o with resent := o'.resent } := by
  obtain ⟨dest₁, ⟨kind₁, sequence₁, total₁, index₁⟩, resent₁, payload₁⟩ := o
  obtain ⟨dest₂, ⟨kind₂, sequence₂, total₂, index₂⟩, resent₂, payload₂⟩ := o'
  obtain rfl : index₂ = index₁ := UInt16.toNat_inj.mp index
  obtain rfl : total₂ = total₁ := UInt16.toNat_inj.mp (h'.total.trans h.total.symm)
  obtain rfl : kind₂ = kind₁ := h'.kind.trans h.kind.symm
  obtain rfl : payload₂ = payload₁ := h'.payload.trans h.payload.symm
  obtain rfl : dest₂ = dest₁ := dest
  obtain rfl : sequence₂ = sequence₁ := sequence
  rfl

namespace History

variable {cs W : Nat} {h : History} {n : UInt64} {m m' : Message} {e : Event} {o : Outgoing}

/-! ## What a step adds to the log -/

theorem log_step (h : History) (e : Event) : (h.step e).log = h.log ∨
    ∃ f, (h.step e).log = f :: h.log ∧
      (∀ ack progress, f = .acknowledged ack progress → e = .acknowledge ack) ∧
      ∀ o, f = .emitted o → e = .next ∧ h.queue.next.1 = some o := by
  cases e with
  | register dest data reliable =>
    cases hr : h.queue.register dest data reliable with
    | error _ => exact Or.inl (congrArg History.log (step_of_error hr))
    | ok _ => exact Or.inr ⟨_, congrArg History.log (step_of_ok hr), by simp, by simp⟩
  | next =>
    show h.queue.next.1.toList.map .emitted ++ h.log = h.log ∨
      ∃ f, h.queue.next.1.toList.map .emitted ++ h.log = f :: h.log ∧ _
    cases h.queue.next.1 with
    | none => exact Or.inl rfl
    | some o => exact Or.inr ⟨_, rfl, by simp, by simp⟩
  | acknowledge ack =>
    refine Or.inr ⟨_, rfl, ?_, by simp⟩
    rintro ack' progress ⟨⟩
    rfl
  | markWritten | tick | dropTo => exact Or.inr ⟨_, rfl, by simp, by simp⟩

theorem log_subset_step (h : History) (e : Event) : h.log ⊆ (h.step e).log := by
  rcases log_step h e with heq | ⟨f, heq, _⟩ <;> rw [heq]
  · exact List.Subset.refl _
  · exact List.subset_cons_self f _

/-! ## Where a chunk comes from -/

/-- The chunk was cut from a message that was registered for its destination. -/
def Sourced (cs : Nat) (log : List Fact) (o : Outgoing) : Prop :=
  ∃ data reliable, .registered o.header.sequence o.dest data reliable ∈ log ∧
    Carries cs data reliable o

theorem Sound.sourced (hs : Sound cs W h) (ho : h.queue.next.1 = some o) :
    Sourced cs h.log o := by
  obtain ⟨m, m', hm, _, he⟩ := Queue.emits_of_next hs.queue ho
  obtain ⟨i, hi, heq, _⟩ := he.chunk_eq (hs.queue.message hm)
  obtain ⟨data, hreg, hcut⟩ := (hs.told _ m hm).origin
  have hdest : o.dest = m.dest := congrArg Outgoing.dest heq
  refine ⟨data, m.reliable, hdest ▸ hreg, ?_⟩
  rw [heq]
  exact hcut.carries hi _

/-- Every chunk in the log has a source. -/
theorem sourced_run (cs W : Nat) (events : List Event) :
    ∀ o, .emitted o ∈ (run cs W events).log → Sourced cs (run cs W events).log o := by
  induction events using List.reverseRecOn with
  | nil => exact fun o ho => by cases ho
  | append_singleton events e ih =>
    have hs := sound_run cs W events
    rw [run_append]
    generalize run cs W events = h at ih hs ⊢
    have hmono : ∀ o, Sourced cs h.log o → Sourced cs (h.step e).log o :=
      fun o ⟨data, reliable, hreg, hc⟩ => ⟨data, reliable, log_subset_step h e hreg, hc⟩
    intro o ho
    rcases log_step h e with heq | ⟨f, heq, _, hf⟩
    · exact hmono o (ih o (heq ▸ ho))
    · rw [heq] at ho
      rcases List.mem_cons.mp ho with hof | ho
      · exact hmono o (hs.sourced (hf o hof.symm).2)
      · exact hmono o (ih o ho)

theorem mem_sent_iff {i : Nat} {log : List Fact} : i ∈ sent n log ↔ ∃ o, .emitted o ∈ log ∧
    o.header.sequence = n ∧ o.resent = false ∧ o.header.index.toNat = i := by
  rw [sent, List.mem_filterMap]
  constructor
  · rintro ⟨f, hf, hsent⟩
    cases f with
    | emitted o =>
      rw [Fact.sent?] at hsent
      split at hsent
      next hmine => exact ⟨o, hf, hmine.1, hmine.2, Option.some.inj hsent⟩
      next => cases hsent
    | _ => cases hsent
  · rintro ⟨o, ho, hn, hfresh, rfl⟩
    exact ⟨_, ho, by rw [Fact.sent?, if_pos ⟨hn, hfresh⟩]⟩

/-- The chunks of a message go out in order. -/
theorem sent_run (cs W : Nat) (events : List Event) (n : UInt64) :
    ∃ k, sent n (run cs W events).log = (List.range k).reverse := by
  induction events using List.reverseRecOn with
  | nil => exact ⟨0, rfl⟩
  | append_singleton events e ih =>
    have hs := sound_run cs W events
    have hs' := sound_run cs W (events ++ [e])
    rw [run_append] at hs' ⊢
    generalize run cs W events = h at ih hs hs' ⊢
    rcases log_step h e with heq | ⟨f, heq, _, hf⟩
    · rw [heq]
      exact ih
    rw [heq, sent_cons]
    cases hsent : f.sent? n with
    | none => exact ih
    | some i =>
      -- a chunk goes out, and its message is still there and knows how many did
      cases f with
      | emitted o =>
        obtain ⟨rfl, ho⟩ := hf o rfl
        rw [Fact.sent?] at hsent
        split at hsent
        next hmine =>
          obtain ⟨_, m', _, hm', _⟩ := Queue.emits_of_next hs.queue ho
          have htold := (hs'.told _ m' hm').sent_eq
          rw [heq, sent_cons, Fact.sent?, hmine.1, if_pos ⟨rfl, hmine.2⟩] at htold
          cases hsent
          exact ⟨m'.firstUnsent, htold⟩
        next => cases hsent
      | _ => cases hsent

/-! ## Acknowledgements -/

/-- After the chunk was sent an acknowledgement came that names it. -/
inductive Acknowledged (c : Chunk.Header) : List Fact → Prop
  | now (ack : Chunk.Header) (progress : Bool) (log : List Fact) (names : ack.toAck = c.toAck)
      (sent : c.index.toNat ∈ sent c.sequence log) :
      Acknowledged c (.acknowledged ack progress :: log)
  | before (f : Fact) (log : List Fact) (earlier : Acknowledged c log) : Acknowledged c (f :: log)

theorem Acknowledged.mem_sent {c : Chunk.Header} {log : List Fact} (h : Acknowledged c log) :
    c.index.toNat ∈ sent c.sequence log := by
  induction h with
  | now ack progress log _ hsent =>
    rw [sent_cons]
    exact List.mem_append_right _ hsent
  | before f log _ ih =>
    rw [sent_cons]
    exact List.mem_append_right _ ih

theorem Acknowledged.step {c : Chunk.Header} (ha : Acknowledged c h.log) (e : Event) :
    Acknowledged c (h.step e).log := by
  rcases log_step h e with heq | ⟨f, heq, _⟩ <;> rw [heq]
  · exact ha
  · exact .before f _ ha

theorem Acknowledged.of_step {c : Chunk.Header} (ha : Acknowledged c (h.step e).log) :
    Acknowledged c h.log ∨ ∃ ack, e = .acknowledge ack ∧ ack.toAck = c.toAck ∧
      c.index.toNat ∈ sent c.sequence h.log := by
  rcases log_step h e with heq | ⟨f, heq, hack, _⟩ <;> rw [heq] at ha
  · exact Or.inl ha
  · cases ha with
    | now ack progress _ names sent => exact Or.inr ⟨ack, hack ack progress rfl, names, sent⟩
    | before _ _ earlier => exact Or.inl earlier

/-- A chunk becomes acknowledged with an acknowledgement of it, and stays so. -/
theorem Evolves.mem_acked (h : Evolves W n m e m') {i : Nat} :
    (i ∈ m.acked → i ∈ m'.acked) ∧ (i ∈ m'.acked → i ∈ m.acked ∨ ∃ ack, e = .acknowledge ack ∧
      n = ack.sequence ∧ ack.total.toNat = m.total ∧ ack.index.toNat = i ∧ i < m.firstUnsent) := by
  cases h with
  | same | written => exact ⟨id, Or.inl⟩
  | asked _ _ emits =>
    rw [emits.grows.2]
    exact ⟨id, Or.inl⟩
  | ticked _ _ _ _ ticks =>
    rw [ticks.same.2]
    exact ⟨id, Or.inl⟩
  | acknowledged ack _ mine taken =>
    obtain ⟨⟨_, htotal, hlt, _⟩, rfl⟩ := Message.acknowledge?_eq_some_iff.mp taken
    refine ⟨fun hi => Std.TreeSet.mem_insert.mpr (Or.inr hi), fun hi => ?_⟩
    rcases Std.TreeSet.mem_insert.mp hi with heq | hi
    · have heq := Std.compare_eq_iff_eq.mp heq
      exact Or.inr ⟨ack, rfl, mine, htotal, heq, heq ▸ hlt⟩
    · exact Or.inl hi

/-- The reliable messages in the queue know which of their chunks are acknowledged. -/
def Heeds (h : History) : Prop :=
  ∀ n m, h.queue.find? n = some m → m.reliable = true →
    ∀ i < m.total, i ∈ m.acked ↔ Acknowledged (m.header i) h.log

/-- An acknowledgement names a chunk if it has its numbers. -/
theorem Sound.names_iff (hs : Sound cs W h) (hm : h.queue.find? n = some m) {i : Nat}
    (hi : i < m.total) (ack : Chunk.Header) : ack.toAck = (m.header i).toAck ↔
      n = ack.sequence ∧ ack.total.toNat = m.total ∧ ack.index.toNat = i := by
  obtain ⟨_, _, hcut⟩ := (hs.told n m hm).origin
  have hn : m.sequence = n := Queue.Sound.sequence hm
  constructor
  · intro heq
    have hsequence : ack.sequence = n := (congrArg Chunk.Header.sequence heq).trans hn
    have htotal : ack.toAck.total = (m.header i).toAck.total := congrArg Chunk.Header.total heq
    have hindex : ack.toAck.index = (m.header i).toAck.index := congrArg Chunk.Header.index heq
    change ack.total = (m.header i).total at htotal
    change ack.index = (m.header i).index at hindex
    rw [htotal, hindex, hcut.toNat_total, hcut.toNat_index hi]
    exact ⟨hsequence.symm, rfl, rfl⟩
  · rintro ⟨hsequence, htotal, hindex⟩
    have htotal : ack.total = (m.header i).total :=
      UInt16.toNat_inj.mp (htotal.trans (hcut.toNat_total i).symm)
    have hindex : ack.index = (m.header i).index :=
      UInt16.toNat_inj.mp (hindex.trans (hcut.toNat_index hi).symm)
    simp only [Chunk.Header.toAck, htotal, hindex, ← hsequence, ← hn]
    rfl

/-- A message knows which of its chunks were sent. -/
theorem Sound.sent_header_iff (hs : Sound cs W h) (hm : h.queue.find? n = some m) {i : Nat}
    (hi : i < m.total) :
    (m.header i).index.toNat ∈ sent (m.header i).sequence h.log ↔ i < m.firstUnsent := by
  have htold := hs.told n m hm
  obtain ⟨_, _, hcut⟩ := htold.origin
  have hn : (m.header i).sequence = n := Queue.Sound.sequence hm
  rw [hcut.toNat_index hi, hn]
  exact htold.mem_sent

theorem Heeds.step (hh : Heeds h) (hs : Sound cs W h) (e : Event) : Heeds (h.step e) := by
  intro n m' hm' hr i hi
  rcases hs.evolves hm' with ⟨dest, data, reliable, q, pieces, rfl, hok, rfl⟩ | ⟨m, hm, hev⟩
  · -- nothing is known of a message that was just taken in
    have hnew := hs.not_names (n := n)
      (by rw [(Queue.register_fields hok).1]; exact Nat.lt_irrefl _)
    refine iff_of_false (by simp) fun ha => ?_
    rcases ha.of_step with ha | ⟨_, he, _⟩
    · have hsent := ha.mem_sent
      rw [show Chunk.Header.sequence _ = n from rfl, sent_eq_nil hnew] at hsent
      cases hsent
    · cases he
  · have hk := hev.kin
    have hr' : m.reliable = true := hk.reliable ▸ hr
    have hi' : i < m.total := hk.total ▸ hi
    have hold := hh n m hm hr' i hi'
    have hnames := hs.names_iff hm hi'
    have hsent := hs.sent_header_iff hm hi'
    rw [hk.header_eq]
    obtain ⟨hstays, hcomes⟩ := hev.mem_acked (i := i)
    constructor
    · intro hacked
      rcases hcomes hacked with hacked | ⟨ack, rfl, hn, htotal, hindex, hlt⟩
      · exact (hold.mp hacked).step e
      · exact .now ack _ h.log ((hnames ack).mpr ⟨hn, htotal, hindex⟩) (hsent.mpr hlt)
    · intro ha
      rcases ha.of_step with ha | ⟨ack, rfl, hack, hsent'⟩
      · exact hstays (hold.mpr ha)
      · have hlt := hsent.mp hsent'
        obtain ⟨rfl, htotal, rfl⟩ := (hnames ack).mp hack
        exact Queue.acked_of_acknowledges hs.queue (Queue.acknowledges_acknowledge h.queue ack) hm
          hr' htotal hlt hm'

theorem heeds_run (cs W : Nat) (events : List Event) : Heeds (run cs W events) := by
  induction events using List.reverseRecOn with
  | nil => exact fun n m hm => by cases hm
  | append_singleton events e ih =>
    rw [run_append]
    exact ih.step (sound_run cs W events) e

/-! ## What is picked for the wire -/

/-- What a chunk for the wire is, by what the log told before. -/
structure Wired (cs : Nat) (log : List Fact) (o : Outgoing) : Prop where
  known : ∃ dest data reliable, .registered o.header.sequence dest data reliable ∈ log
  carries : ∀ dest data reliable, .registered o.header.sequence dest data reliable ∈ log →
    o.dest = dest ∧ Carries cs data reliable o ∧ (o.resent = true → reliable = true)
  /-- the chunks before it went out, and it did not -/
  fresh : o.resent = false → sent o.header.sequence log = (List.range o.header.index.toNat).reverse
  /-- it went out as it is, and waits for an acknowledgement -/
  again : o.resent = true → .emitted { o with resent := false } ∈ log ∧
    ¬ Acknowledged o.header log

/-- Whatever is done with the queue, every chunk that it picks for the wire is the right one,
and the chunks of each message go out for the first time in order and once. -/
theorem wired_run (cs W : Nat) (events : List Event) :
    (∀ o, (run cs W events).queue.next.1 = some o → Wired cs (run cs W events).log o) ∧
      ∀ n, ∃ k, sent n (run cs W events).log = (List.range k).reverse := by
  have hs := sound_run cs W events
  refine ⟨fun o ho => ?_, sent_run cs W events⟩
  have hsourced := sourced_run cs W events
  have hheeds := heeds_run cs W events
  generalize run cs W events = h at hs ho hsourced hheeds ⊢
  obtain ⟨data, reliable, hreg, hcarries⟩ := hs.sourced ho
  obtain ⟨m, _, hm, _, he⟩ := Queue.emits_of_next hs.queue ho
  obtain ⟨i, hi, heq, hmissing, hfirst, hagain⟩ := he.chunk_eq (hs.queue.message hm)
  have htold := hs.told _ m hm
  obtain ⟨_, hreg', hcut⟩ := htold.origin
  obtain ⟨_, rfl, rfl⟩ := registered_inj hs.nodup_given hreg hreg'
  have hheader : o.header = m.header i := congrArg Outgoing.header heq
  have hindex : o.header.index.toNat = i := by
    rw [hheader]
    exact hcut.toNat_index hi
  refine ⟨⟨_, _, _, hreg⟩, ?_, fun hfresh => ?_, fun hresent => ?_⟩
  · intro dest data' reliable' hreg'
    obtain ⟨rfl, rfl, rfl⟩ := registered_inj hs.nodup_given hreg hreg'
    exact ⟨rfl, hcarries, fun hresent => (hagain hresent).1⟩
  · rw [htold.sent_eq, hindex, hfirst hfresh]
  · obtain ⟨hr, hlt⟩ := hagain hresent
    constructor
    · obtain ⟨o', ho', hsequence, hfresh', hindex'⟩ := mem_sent_iff.mp (htold.mem_sent.mpr hlt)
      obtain ⟨data', reliable', hreg', hcarries'⟩ := hsourced o' ho'
      rw [hsequence] at hreg'
      obtain ⟨hdest, rfl, rfl⟩ := registered_inj hs.nodup_given hreg hreg'
      have hsame := hcarries.eq hcarries' hdest.symm hsequence (hindex'.trans hindex.symm)
      rw [hfresh'] at hsame
      exact hsame ▸ ho'
    · rw [hheader]
      exact fun ha => hmissing ((hheeds _ m hm hr i hi).mpr ha)

/-- Three bytes in chunks of two. The acknowledgement of the first chunk arrives, that of the
second does not. -/
def shortLast : List Event :=
  let peer : SocketAddr := { ip := .v4 127 0 0 1, port := 7001 }
  let ack : Chunk.Header := { kind := .ack, sequence := 0, total := 2, index := 0 }
  [.register peer [1, 2, 3] true, .next, .next, .acknowledge ack, .tick 1 3]

theorem wired_shortLast : ∃ o, (run 2 4 shortLast).queue.next.1 = some o ∧ o.resent = true ∧
    o.payload = [3] ∧ Wired 2 (run 2 4 shortLast).log o :=
  ⟨_, rfl, rfl, rfl, (wired_run 2 4 shortLast).1 _ rfl⟩

end History

end Courier.Outbound
