import Courier.Proofs.Datagram.Awaiting

/-!
What datagrams do to a reliable message that waits for acknowledgements. An acknowledgement
tells the number of a message, and a channel does not look at who sent it: any peer that
answers in place of the right one settles the message.
-/

namespace Courier.Outbound.Message

/-- Some chunk of a message in a queue is not acknowledged. -/
theorem Sound.exists_missing {W : Nat} {m : Message} (h : m.Sound W) :
    ∃ i < m.total, i ∉ m.acked := by
  by_cases hsent : m.firstUnsent < m.total
  · exact ⟨m.firstUnsent, hsent, h.firstUnsent_not_mem⟩
  · have hsize := h.size_acked
    have hopen := h.not_allAcked
    obtain ⟨i, hi⟩ := List.exists_mem_of_length_pos (show 0 < m.unacked.length by omega)
    obtain ⟨hlt, hmissing⟩ := mem_unacked.mp hi
    exact ⟨i, Nat.lt_of_lt_of_le hlt h.firstUnsent_le, hmissing⟩

end Courier.Outbound.Message

namespace Courier.Datagram

open Outbound

structure Incoming where
  sender : SocketAddr
  packet : Bytes
  now : Instant

/-- A channel after datagrams, the first one first. -/
def hear (c : Config) (ch : Channel) (ds : List Incoming) : Channel :=
  ds.foldl (fun ch d => (ch.receive c d.now d.sender d.packet).2) ch

/-- The acknowledgement in a datagram. -/
def ackOf? (c : Config) (packet : Bytes) : Option Chunk.Header :=
  if c.packetSize < packet.length then none
  else
    match Chunk.Header.decode packet with
    | .error _ => none
    | .ok (h, _) => if h.kind = .ack then some h else none

/-- A datagram acknowledges a chunk of a message that was sent, whoever the datagram is
from. -/
def Answers (c : Config) (m : Message) (packet : Bytes) (i : Nat) : Prop :=
  ∃ ack, ackOf? c packet = some ack ∧ ack.sequence = m.sequence ∧ ack.total.toNat = m.total ∧
    ack.index.toNat = i ∧ i < m.firstUnsent

def Answered (c : Config) (m : Message) (ds : List Incoming) (i : Nat) : Prop :=
  ∃ d ∈ ds, Answers c m d.packet i

/-- A datagram acknowledges one chunk at most. -/
theorem Answers.eq {c : Config} {m : Message} {packet : Bytes} {i j : Nat}
    (hi : Answers c m packet i) (hj : Answers c m packet j) : i = j := by
  obtain ⟨ack, ha, _, _, hi, _⟩ := hi
  obtain ⟨ack', ha', _, _, hj, _⟩ := hj
  cases ha.symm.trans ha'
  exact hi.symm.trans hj

theorem answered_cons {c : Config} {m : Message} {d : Incoming} {ds : List Incoming} {i : Nat} :
    Answered c m (d :: ds) i ↔ Answers c m d.packet i ∨ Answered c m ds i := by
  simp [Answered]

/-! ## One datagram -/

section

variable {c : Config} {ch : Channel} {n : UInt64} {m : Message}

theorem outbound_receive (c : Config) (ch : Channel) (now : Instant) (sender : SocketAddr)
    (packet : Bytes) : (ch.receive c now sender packet).2.outbound =
      match ackOf? c packet with
      | none => ch.outbound
      | some ack => (ch.outbound.acknowledge ack).2 := by
  unfold Channel.receive ackOf?
  split
  · rfl
  · cases Chunk.Header.decode packet with
    | error => rfl
    | ok r =>
      dsimp only
      split
      · rfl
      · rw [receiveChunk_snd]

theorem sound_receive (hq : ch.outbound.Sound) (now : Instant) (sender : SocketAddr)
    (packet : Bytes) : (ch.receive c now sender packet).2.outbound.Sound := by
  rw [outbound_receive]
  split
  · exact hq
  · exact (hq.acknowledges (Queue.acknowledges_acknowledge _ _)).1

/-- What becomes of a message with one datagram. -/
inductive Hears (c : Config) (m : Message) (packet : Bytes) : Option Message → Prop
  | ignored (known : ∀ i, Answers c m packet i → i ∈ m.acked) : Hears c m packet (some m)
  | progress (i : Nat) (answers : Answers c m packet i) (missing : i ∉ m.acked) :
      Hears c m packet (some { m with
        acked := m.acked.insert i
        outstanding := m.outstanding - 1
        stalledTicks := 0 })
  | settled (i : Nat) (answers : Answers c m packet i)
      (others : ∀ j < m.total, j = i ∨ j ∈ m.acked) : Hears c m packet none

theorem hears_receive (hq : ch.outbound.Sound) (hm : ch.outbound.find? n = some m)
    (hrel : m.reliable = true) (now : Instant) (sender : SocketAddr) (packet : Bytes) :
    Hears c m packet ((ch.receive c now sender packet).2.outbound.find? n) := by
  rw [outbound_receive]
  have hn : m.sequence = n := Queue.Sound.sequence hm
  cases hack : ackOf? c packet with
  | none =>
    dsimp only
    rw [hm]
    exact .ignored fun i ⟨ack, ha, _⟩ => by cases hack.symm.trans ha
  | some ack =>
    -- it answers for this message only if it names it
    have hanswers : ∀ i, Answers c m packet i → ack.sequence = n ∧ ack.total.toNat = m.total ∧
        ack.index.toNat = i ∧ i < m.firstUnsent := fun i ⟨ack', ha, hs, h⟩ => by
      cases hack.symm.trans ha
      exact ⟨hs.trans hn, h⟩
    have hacks := Queue.acknowledges_acknowledge ch.outbound ack
    dsimp only
    generalize ch.outbound.acknowledge ack = result at hacks
    obtain ⟨b, q'⟩ := result
    dsimp only at hacks ⊢
    cases hacks with
    | ignored hnot =>
      rw [hm]
      refine .ignored fun i ha => ?_
      obtain ⟨rfl, ht, rfl, hlt⟩ := hanswers i ha
      exact Queue.acked_of_acknowledges hq (.ignored hnot) hm hrel ht hlt hm
    | progress m₀ m' found taken open_ =>
      rw [Queue.find?_progress found taken]
      by_cases hs : n = ack.sequence
      · rw [if_pos hs]
        cases hm.symm.trans (hs ▸ found)
        obtain ⟨⟨_, ht, hlt, hmissing⟩, rfl⟩ := Message.acknowledge?_eq_some_iff.mp taken
        exact .progress _ ⟨ack, hack, hs.symm.trans hn.symm, ht, rfl, hlt⟩ hmissing
      · rw [if_neg hs, hm]
        exact .ignored fun i ha => absurd (hanswers i ha).1.symm hs
    | settled m₀ m' found taken all =>
      rw [Queue.find?_settled hq found taken]
      by_cases hs : n = ack.sequence
      · rw [if_pos hs]
        cases hm.symm.trans (hs ▸ found)
        obtain ⟨_, ht, hlt, _⟩ := (Message.acknowledge?_eq_some_iff.mp taken).1
        exact .settled _ ⟨ack, hack, hs.symm.trans hn.symm, ht, rfl, hlt⟩
          ((hq.message hm).all_acked taken all)
      · rw [if_neg hs, hm]
        exact .ignored fun i ha => absurd (hanswers i ha).1.symm hs

theorem find?_receive_none (hq : ch.outbound.Sound) (hnone : ch.outbound.find? n = none)
    (now : Instant) (sender : SocketAddr) (packet : Bytes) :
    (ch.receive c now sender packet).2.outbound.find? n = none := by
  rw [outbound_receive]
  split
  · exact hnone
  · next ack _ =>
    refine Option.eq_none_iff_forall_ne_some.mpr fun m' hm' => ?_
    rcases Queue.message_of_acknowledges hq (Queue.acknowledges_acknowledge _ ack) hm' with
      hm | ⟨_, m, hm, _⟩
    · cases hnone.symm.trans hm
    · cases hnone.symm.trans hm

end

/-! ## Any number of datagrams -/

/-- What becomes of a message with datagrams. -/
inductive Fares (c : Config) (m : Message) (ds : List Incoming) : Option Message → Prop
  | settled (all : ∀ i < m.total, i ∈ m.acked ∨ Answered c m ds i) : Fares c m ds none
  | stays (m' : Message) (sound : ∃ W, m'.Sound W) (kin : Message.Kin m m')
      (acked : ∀ i, i ∈ m'.acked ↔ i ∈ m.acked ∨ Answered c m ds i)
      (untouched : (∀ i, Answered c m ds i → i ∈ m.acked) → m' = m)
      (progress : ∀ i, Answered c m ds i → i ∉ m.acked → m'.stalledTicks = 0) :
      Fares c m ds (some m')

section

variable {c : Config} {n : UInt64}

theorem Fares.ignored {m : Message} {d : Incoming} {ds : List Incoming} {found : Option Message}
    (h : Fares c m ds found) (known : ∀ i, Answers c m d.packet i → i ∈ m.acked) :
    Fares c m (d :: ds) found := by
  cases h with
  | settled all =>
    exact .settled fun j hj => (all j hj).imp_right fun hj => answered_cons.mpr (Or.inr hj)
  | stays m' sound kin acked untouched progress =>
    refine .stays m' sound kin (fun j => ?_) (fun hall => ?_) fun j hj hmissing => ?_
    · rw [acked, answered_cons]
      have := known j
      tauto
    · exact untouched fun j hj => hall j (answered_cons.mpr (Or.inr hj))
    · exact progress j ((answered_cons.mp hj).resolve_left (hmissing ∘ known j)) hmissing

theorem Fares.progress {m : Message} {d : Incoming} {ds : List Incoming} {found : Option Message}
    {i : Nat} (h : Fares c
      { m with acked := m.acked.insert i, outstanding := m.outstanding - 1, stalledTicks := 0 }
      ds found) (answers : Answers c m d.packet i) (missing : i ∉ m.acked) :
    Fares c m (d :: ds) found := by
  have hmem : ∀ j, j ∈ m.acked.insert i ↔ i = j ∨ j ∈ m.acked := fun j => by
    rw [Std.TreeSet.mem_insert, Std.compare_eq_iff_eq]
  have hanswered : ∀ j, (j ∈ m.acked.insert i ∨ Answered c m ds j) ↔
      j ∈ m.acked ∨ Answered c m (d :: ds) j := fun j => by
    have hone : Answers c m d.packet j ↔ i = j :=
      ⟨fun hj => answers.eq hj, fun hj => hj ▸ answers⟩
    rw [hmem, answered_cons, hone]
    tauto
  cases h with
  | settled all => exact .settled fun j hj => (hanswered j).mp (all j hj)
  | stays m' sound kin acked untouched progress =>
    refine .stays m' sound ⟨kin.1, kin.2, kin.3, kin.4⟩ (fun j => (acked j).trans (hanswered j))
      (fun hall => ?_) fun _ _ _ => ?_
    · exact absurd (hall i (answered_cons.mpr (Or.inl answers))) missing
    · -- its ticks start anew here, and with each chunk that is answered after it
      by_cases hmore : ∀ j, Answered c m ds j → j ∈ m.acked.insert i
      · rw [untouched hmore]
      · push Not at hmore
        obtain ⟨j, hj, hnot⟩ := hmore
        exact progress j hj hnot

theorem Fares.eq_none_iff {m : Message} {ds : List Incoming} {found : Option Message}
    (h : Fares c m ds found) :
    found = none ↔ ∀ i < m.total, i ∈ m.acked ∨ Answered c m ds i := by
  cases h with
  | settled all => exact iff_of_true rfl all
  | stays m' sound kin acked =>
    refine iff_of_false (by simp) fun hall => ?_
    obtain ⟨W, hsound⟩ := sound
    obtain ⟨i, hi, hmissing⟩ := hsound.exists_missing
    exact hmissing ((acked i).mpr (hall i (kin.total ▸ hi)))

theorem Fares.same_iff {m : Message} {ds : List Incoming} {found : Option Message}
    (h : Fares c m ds found) {W : Nat} (hm : m.Sound W) :
    found = some m ↔ ∀ i, Answered c m ds i → i ∈ m.acked := by
  cases h with
  | settled all =>
    refine iff_of_false (by simp) fun hknown => ?_
    obtain ⟨i, hi, hmissing⟩ := hm.exists_missing
    exact hmissing ((all i hi).elim id (hknown i))
  | stays m' sound kin acked untouched =>
    constructor
    · rintro ⟨⟩ i hi
      exact (acked i).mpr (Or.inr hi)
    · exact fun hknown => congrArg some (untouched hknown)

theorem find?_hear_none {ch : Channel} (hq : ch.outbound.Sound)
    (hnone : ch.outbound.find? n = none) (ds : List Incoming) :
    (hear c ch ds).outbound.find? n = none := by
  induction ds generalizing ch with
  | nil => exact hnone
  | cons d ds ih => exact ih (sound_receive hq _ _ _) (find?_receive_none hq hnone _ _ _)

theorem fares_hear {ch : Channel} (hq : ch.outbound.Sound) {m : Message}
    (hm : ch.outbound.find? n = some m) (hrel : m.reliable = true) (ds : List Incoming) :
    Fares c m ds ((hear c ch ds).outbound.find? n) := by
  induction ds generalizing ch m with
  | nil =>
    show Fares c m [] (ch.outbound.find? n)
    rw [hm]
    exact .stays m ⟨_, hq.message hm⟩ (.refl m) (by simp [Answered]) (fun _ => rfl)
      (by simp [Answered])
  | cons d ds ih =>
    have hq' := sound_receive (c := c) hq d.now d.sender d.packet
    have hstep := hears_receive (c := c) hq hm hrel d.now d.sender d.packet
    show Fares c m (d :: ds)
      ((hear c (ch.receive c d.now d.sender d.packet).2 ds).outbound.find? n)
    generalize (ch.receive c d.now d.sender d.packet).2 = ch' at hq' hstep
    generalize hfound : ch'.outbound.find? n = found at hstep
    cases hstep with
    | ignored known => exact (ih hq' hfound hrel).ignored known
    | progress i answers missing => exact (ih hq' hfound hrel).progress answers missing
    | settled i answers others =>
      rw [find?_hear_none hq' hfound]
      refine .settled fun j hj => ?_
      rcases others j hj with rfl | hacked
      · exact Or.inr (answered_cons.mpr (Or.inl answers))
      · exact Or.inl hacked

theorem abandoned_hear (ch : Channel) (ds : List Incoming) :
    (hear c ch ds).abandoned = ch.abandoned := by
  induction ds generalizing ch with
  | nil => rfl
  | cons d ds ih => exact (ih _).trans (Life.receive_cases ch c d.now d.sender d.packet).1

/-- A message that is being sent was not given up. -/
theorem Life.Sound.not_isAbandoned {l : Life} (h : l.Sound c) {m : Message}
    (hm : l.channel.outbound.find? n = some m) : l.channel.isAbandoned n = false := by
  refine Bool.eq_false_iff.mpr fun hgiven => ?_
  obtain ⟨⟨t, ht⟩, _⟩ := h.isAbandoned_iff.mp hgiven
  rw [h.stays n m hm] at ht
  cases ht

end

/-- What datagrams do to a reliable message on its way out, in any state of a channel and
whoever sent them: it is left alone exactly if they acknowledge nothing new, it learns of the
chunks that they acknowledge, and a sender who waits is told that it was sent as soon as each
chunk was acknowledged by somebody. -/
theorem heard_run (c : Config) (family : Ip.Family) (events : List Life.Event) {n : UInt64}
    {m : Message} (hm : (Life.run c family events).channel.outbound.find? n = some m)
    (hrel : m.reliable = true) (ds : List Incoming) :
    let ch := hear c (Life.run c family events).channel ds
    (ch.outbound.find? n = some m ↔ ∀ i, Answered c m ds i → i ∈ m.acked) ∧
      (∀ m', ch.outbound.find? n = some m' →
        (∀ i, i ∈ m'.acked ↔ i ∈ m.acked ∨ Answered c m ds i) ∧
          m'.outstanding = m'.unacked.length ∧ (m' = m ∨ m'.stalledTicks = 0)) ∧
      (ch.outbound.find? n = none ↔ ∀ i < m.total, i ∈ m.acked ∨ Answered c m ds i) ∧
      ∀ now deadline, ch.awaitSent n now deadline = some true ↔
        ∀ i < m.total, i ∈ m.acked ∨ Answered c m ds i := by
  have h := Life.sound_run c family events
  intro ch
  have hfares : Fares c m ds (ch.outbound.find? n) := fares_hear h.queue hm hrel ds
  have hgiven : ch.isAbandoned n = false := by
    unfold Channel.isAbandoned
    rw [abandoned_hear]
    exact h.not_isAbandoned hm
  have hgone := hfares.eq_none_iff
  refine ⟨hfares.same_iff (h.queue.message hm), fun m' hm' => ?_, hgone, fun now deadline => ?_⟩
  · rw [hm'] at hfares
    cases hfares with
    | stays _ sound kin acked untouched progress =>
      obtain ⟨W, hsound⟩ := sound
      refine ⟨acked, hsound.outstanding_eq (kin.reliable.trans hrel), ?_⟩
      by_cases hnew : ∀ i, Answered c m ds i → i ∈ m.acked
      · exact Or.inl (untouched hnew)
      · push Not at hnew
        obtain ⟨i, hi, hmissing⟩ := hnew
        exact Or.inr (progress i hi hmissing)
  · rw [← hgone]
    unfold Channel.awaitSent Channel.isPending Queue.contains
    rw [hgiven]
    cases ch.outbound.find? n with
    | none => simp
    | some m' => by_cases hlate : deadline ≤ now <;> simp [hlate]

def addressee : SocketAddr := { ip := .v4 127 0 0 1, port := 7001 }

def stranger : SocketAddr := { ip := .v4 127 0 0 1, port := 7002 }

/-- A message of one chunk that was sent and not yet acknowledged. -/
def unheard : List Life.Event := [.send addressee [7] true, .pick, .write 0]

/-- The acknowledgement of the first chunk of the first message. -/
def firstAck : Bytes := Chunk.packet ⟨.ack, 0, 1, 0⟩ []

theorem heard_addressee :
    (Life.run {} .v4 unheard).channel.outbound.find? 0 = some
        { sequence := 0, dest := addressee, reliable := true, pieces := #[[7]],
          firstUnsent := 1, outstanding := 1 } ∧
      (hear {} (Life.run {} .v4 unheard).channel [⟨addressee, firstAck, 0⟩]).awaitSent 0 0 0 =
        some true := by
  have hm : (Life.run {} .v4 unheard).channel.outbound.find? 0 = some
      { sequence := 0, dest := addressee, reliable := true, pieces := #[[7]],
        firstUnsent := 1, outstanding := 1 } := by rfl
  refine ⟨hm, ((heard_run {} .v4 unheard hm rfl [⟨addressee, firstAck, 0⟩]).2.2.2 0 0).mpr ?_⟩
  intro i hi
  obtain rfl : i = 0 := Nat.lt_one_iff.mp hi
  exact Or.inr ⟨_, List.mem_singleton_self _, ⟨.ack, 0, 1, 0⟩, by decide, rfl, rfl, rfl, hi⟩

/-- A message to one peer is settled by the datagram of another one, and the sender is told
that it was sent. -/
theorem heard_stranger :
    Config.validate {} = .ok () ∧ stranger ≠ addressee ∧
      (∃ m, (Life.run {} .v4 unheard).channel.outbound.find? 0 = some m ∧ m.dest = addressee ∧
        m.reliable = true) ∧
      (hear {} (Life.run {} .v4 unheard).channel [⟨stranger, firstAck, 0⟩]).outbound.find? 0 =
        none ∧
      (hear {} (Life.run {} .v4 unheard).channel [⟨stranger, firstAck, 0⟩]).awaitSent 0 0 0 =
        some true :=
  ⟨rfl, by decide, ⟨_, rfl, rfl, rfl⟩, by decide, by decide⟩

end Courier.Datagram
