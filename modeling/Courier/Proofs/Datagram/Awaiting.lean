import Courier.Proofs.Datagram.Leaving

/-!
What a sender who waits for a message is told. He is told that it was sent if it left
the queue in any way but by being given up; also if the connection to its peer was
closed, and if it was given up so long ago that this is forgotten.
-/

namespace Courier.Datagram.Life

open Outbound

/-- The message left the queue because it was sent, and it was sent. -/
def LeftAsSent (c : Config) (n : UInt64) (log : List Fact) : Prop :=
  (exits n log = [.acknowledged] ∨ exits n log = [.finished]) ∧ Sent c n log

/-- The message was given up, and that is still known. -/
def KnownAbandoned (c : Config) (n : UInt64) (log : List Fact) : Prop :=
  (∃ t, exits n log = [.abandoned t]) ∧ ¬ Forgotten c n log

/-- The message was given up, and that is forgotten. -/
def ForgottenAbandoned (c : Config) (n : UInt64) (log : List Fact) : Prop :=
  (∃ t, exits n log = [.abandoned t]) ∧ Forgotten c n log

section

variable {c : Config} {l : Life} {n : UInt64}

theorem Sound.isAbandoned_iff (h : Sound c l) :
    l.channel.isAbandoned n = true ↔ KnownAbandoned c n l.log := by
  unfold Channel.isAbandoned KnownAbandoned
  rw [Option.isSome_iff_exists, ← mem_keys_iff, List.mem_map]
  constructor
  · rintro ⟨⟨_, t⟩, hmem, rfl⟩
    obtain ⟨he, hf⟩ := (h.remembered _ t).mp hmem
    exact ⟨⟨t, h.exits_eq he⟩, hf⟩
  · rintro ⟨⟨t, he⟩, hf⟩
    exact ⟨(n, t), (h.remembered n t).mpr ⟨he ▸ List.mem_singleton_self _, hf⟩, rfl⟩

theorem Sound.isPending_iff (h : Sound c l) {dest : SocketAddr} {data : Bytes} {reliable : Bool}
    (hreg : .registered n dest data reliable ∈ l.log) :
    l.channel.isPending n = true ↔ exits n l.log = [] := by
  unfold Channel.isPending Queue.contains
  rw [Option.isSome_iff_exists]
  constructor
  · rintro ⟨m, hm⟩
    exact h.stays n m hm
  · intro hempty
    by_contra hnone
    obtain ⟨e, he⟩ := h.leaves n dest data reliable hreg
      (Option.eq_none_iff_forall_ne_some.mpr fun m hm => hnone ⟨m, hm⟩)
    rw [hempty] at he
    cases he

/-- A message that left was sent, closed, or given up. -/
theorem Sound.exit_cases (h : Sound c l) (hne : exits n l.log ≠ []) :
    LeftAsSent c n l.log ∨ exits n l.log = [.cancelled] ∨ ∃ t, exits n l.log = [.abandoned t] := by
  obtain ⟨e, hmem⟩ := List.exists_mem_of_ne_nil _ hne
  have he := h.exits_eq hmem
  cases e with
  | acknowledged => exact Or.inl ⟨Or.inl he, h.honest n (Or.inl hmem)⟩
  | finished => exact Or.inl ⟨Or.inr he, h.honest n (Or.inr hmem)⟩
  | abandoned t => exact Or.inr (Or.inr ⟨t, he⟩)
  | cancelled => exact Or.inr (Or.inl he)

theorem Sound.awaitSent_of_pending (h : Sound c l) {dest : SocketAddr} {data : Bytes}
    {reliable : Bool} (hreg : .registered n dest data reliable ∈ l.log)
    (hempty : exits n l.log = []) (now deadline : Instant) :
    l.channel.awaitSent n now deadline = if deadline ≤ now then some false else none := by
  unfold Channel.awaitSent
  rw [if_pos ((h.isPending_iff hreg).mpr hempty)]

theorem Sound.awaitSent_of_left (h : Sound c l) {dest : SocketAddr} {data : Bytes}
    {reliable : Bool} (hreg : .registered n dest data reliable ∈ l.log)
    (hne : exits n l.log ≠ []) (now deadline : Instant) :
    l.channel.awaitSent n now deadline = some (!l.channel.isAbandoned n) := by
  unfold Channel.awaitSent
  rw [if_neg fun hp => hne ((h.isPending_iff hreg).mp hp)]

/-- Of a message that left it is not known that it was given up if it was sent or closed,
or if that is forgotten. -/
theorem Sound.not_knownAbandoned_iff (h : Sound c l) (hne : exits n l.log ≠ []) :
    ¬ KnownAbandoned c n l.log ↔
      LeftAsSent c n l.log ∨ exits n l.log = [.cancelled] ∨ ForgottenAbandoned c n l.log := by
  constructor
  · intro hunknown
    rcases h.exit_cases hne with hsent | he | habandoned
    · exact Or.inl hsent
    · exact Or.inr (Or.inl he)
    · refine Or.inr (Or.inr ⟨habandoned, ?_⟩)
      by_contra hf
      exact hunknown ⟨habandoned, hf⟩
  · rintro hother ⟨⟨t, ht⟩, hf⟩
    rcases hother with ⟨he | he, _⟩ | he | ⟨_, hforgotten⟩
    · cases ht.symm.trans he
    · cases ht.symm.trans he
    · cases ht.symm.trans he
    · exact hf hforgotten

end

/-- Exactly when a waiting sender is told that his message was sent, and when that it was
not. -/
theorem awaitSent_iff (c : Config) (family : Ip.Family) (events : List Event) {n : UInt64}
    {dest : SocketAddr} {data : Bytes} {reliable : Bool}
    (hreg : .registered n dest data reliable ∈ (run c family events).log)
    (now deadline : Instant) :
    ((run c family events).channel.awaitSent n now deadline = some true ↔
      LeftAsSent c n (run c family events).log ∨
        exits n (run c family events).log = [.cancelled] ∨
        ForgottenAbandoned c n (run c family events).log) ∧
    ((run c family events).channel.awaitSent n now deadline = some false ↔
      exits n (run c family events).log = [] ∧ deadline ≤ now ∨
        KnownAbandoned c n (run c family events).log) := by
  have h := sound_run c family events
  generalize run c family events = l at h hreg
  by_cases hempty : exits n l.log = []
  · -- still in the queue
    rw [h.awaitSent_of_pending hreg hempty]
    simp [LeftAsSent, KnownAbandoned, ForgottenAbandoned, hempty]
  · rw [h.awaitSent_of_left hreg hempty, Option.some.injEq, Option.some.injEq,
      Bool.not_eq_true', Bool.not_eq_false', ← h.not_knownAbandoned_iff hempty,
      ← h.isAbandoned_iff, Bool.not_eq_true]
    simp [hempty]

/-- A peer to send to. -/
def somePeer : SocketAddr := { ip := .v4 127 0 0 1, port := 7001 }

/-- A message of one chunk whose acknowledgement arrives. -/
def answered : List Event :=
  [.send somePeer [7] true, .pick, .write 0,
    .receive somePeer (Chunk.packet ⟨.ack, 0, 1, 0⟩ []) 0]

theorem awaitSent_answered :
    Fact.registered 0 somePeer [7] true ∈ (run {} .v4 answered).log ∧
      (run {} .v4 answered).channel.awaitSent 0 0 0 = some true ∧
      LeftAsSent {} 0 (run {} .v4 answered).log := by
  have hreg : Fact.registered 0 somePeer [7] true ∈ (run {} .v4 answered).log :=
    .tail _ (.tail _ (.head _))
  have htold : (run {} .v4 answered).channel.awaitSent 0 0 0 = some true := by decide
  have hexits : exits 0 (run {} .v4 answered).log = [.acknowledged] := by rfl
  refine ⟨hreg, htold, ?_⟩
  rcases (awaitSent_iff {} .v4 answered hreg 0 0).1.mp htold with hsent | he | ⟨⟨t, he⟩, _⟩
  · exact hsent
  · rw [hexits] at he
    cases he
  · rw [hexits] at he
    cases he

/-- A message to a peer whose connection is closed before anything is sent. -/
def closedEarly : List Event := [.send somePeer [7] true, .close somePeer]

/-- The sender is told that it was sent. -/
theorem awaitSent_closedEarly :
    Config.validate {} = .ok () ∧
      Fact.registered 0 somePeer [7] true ∈ (run {} .v4 closedEarly).log ∧
      (run {} .v4 closedEarly).channel.awaitSent 0 0 0 = some true ∧
      ¬ Sent {} 0 (run {} .v4 closedEarly).log := by
  refine ⟨rfl, .tail _ (.head _), by decide, ?_⟩
  rintro ⟨dest, data, reliable, total, hreg, hcount, hall⟩
  change _ ∈ [Fact.closed [0], .registered 0 somePeer [7] true] at hreg
  simp only [List.mem_cons, reduceCtorEq, false_or, List.not_mem_nil, or_false,
    Fact.registered.injEq] at hreg
  obtain ⟨_, _, rfl, rfl⟩ := hreg
  have htotal : 1 = total := Option.some.inj hcount
  obtain ⟨packet, settled, ack, payload, hm, _⟩ := hall 0 (by omega)
  change _ ∈ [Fact.closed [0], .registered 0 somePeer [7] true] at hm
  simp at hm

/-- The same happens when a message was given up long ago: here after five seconds, and
the tick at fifteen seconds forgets it. -/
example : (run {} .v4 ([.send somePeer [7] true, .pick, .write 0] ++
    [1, 2, 3, 4, 5, 15].map fun n => .tick (n * Duration.perSecond))).channel.awaitSent 0 0 0 =
      some true := by decide

end Courier.Datagram.Life
