import Courier.Proofs.Outbound.Queue
import Mathlib.Algebra.GroupWithZero.Nat

/-!
What written chunks, acknowledgements, resend ticks and the dropping of a peer do to
the messages of a queue, each seen through one number.
-/

namespace Courier.Outbound.Queue

/-! ## Changing one message, and taking messages out -/

theorem forall₂_map (l : List Message) (f : Message → Message) :
    List.Forall₂ (fun m m' => m' = f m) l (l.map f) :=
  List.forall₂_map_right_iff.mpr (List.forall₂_same.mpr fun _ _ => rfl)

theorem find?_map (l : List Message) (f : Message → Message)
    (hf : ∀ m, (f m).sequence = m.sequence) (s : UInt64) :
    (l.map f).find? (·.sequence == s) = (l.find? (·.sequence == s)).map f := by
  rcases find?_forall₂ (forall₂_map l f) (fun m m' h => h ▸ hf m) s with
    ⟨h, h'⟩ | ⟨m, m', h, h', rfl⟩
  · rw [h, h', Option.map_none]
  · rw [h, h', Option.map_some]

theorem find?_update (q : Queue) (s : UInt64) (f : Message → Message)
    (hf : ∀ m, m.sequence = s → (f m).sequence = s) (t : UInt64) :
    (q.update s f).find? t = if t = s then (q.find? s).map f else q.find? t := by
  unfold update find?
  rw [find?_map]
  · cases hm : q.ring.find? (·.sequence == t) with
    | none =>
      by_cases ht : t = s
      · subst ht
        simp [hm]
      · simp [ht]
    | some m =>
      have hs : m.sequence = t := by simpa using List.find?_some hm
      by_cases ht : t = s
      · subst ht
        simp [hm, hs]
      · simp [ht, hs]
  · intro m
    by_cases hm : m.sequence = s
    · simp [hm, hf m hm]
    · simp [hm]

theorem numbers_update (q : Queue) (s : UInt64) (f : Message → Message)
    (hf : ∀ m, m.sequence = s → (f m).sequence = s) :
    (q.update s f).ring.map (·.sequence) = q.ring.map (·.sequence) :=
  map_sequence_forall₂ (forall₂_map q.ring _) fun m m' h => by
    rw [h]
    by_cases hm : m.sequence = s
    · simp [hm, hf m hm]
    · simp [hm]

theorem distinct_update {q : Queue} (hd : Distinct q.ring) (s : UInt64) (f : Message → Message)
    (hf : ∀ m, m.sequence = s → (f m).sequence = s) : Distinct (q.update s f).ring := by
  unfold Distinct
  rw [numbers_update q s f hf]
  exact hd

theorem map_update_of_ne {l : List Message} {s : UInt64} {f : Message → Message}
    (hl : ∀ m ∈ l, m.sequence ≠ s) :
    l.map (fun m => if m.sequence == s then f m else m) = l := by
  refine (List.map_congr_left fun m hm => ?_).trans (List.map_id l)
  rw [if_neg (by simpa using hl m hm)]
  rfl

theorem update_of_none {q : Queue} {s : UInt64} (hnone : q.find? s = none)
    (f : Message → Message) : q.update s f = q := by
  rw [update, map_update_of_ne]
  intro m hm
  simpa using List.find?_eq_none.mp hnone m hm

section Place

variable {early late : List Message} {m m' : Message}

theorem find?_at (hd : Distinct (early ++ m :: late)) :
    (early ++ m :: late).find? (·.sequence == m.sequence) = some m :=
  (find?_eq_some_iff hd).mpr ⟨by simp, rfl⟩

/-- Changing the message at a place of the ring. -/
theorem update_at (q : Queue) (hd : Distinct (early ++ m :: late)) (m' : Message) :
    ({ q with ring := early ++ m :: late } : Queue).update m.sequence (fun _ => m') =
      { q with ring := early ++ m' :: late } := by
  unfold Distinct at hd
  rw [List.map_append, List.map_cons, List.nodup_middle, List.nodup_cons, ← List.map_append] at hd
  have hother : ∀ x ∈ early ++ late, x.sequence ≠ m.sequence :=
    fun x hx hc => hd.1 (hc ▸ List.mem_map_of_mem hx)
  unfold update
  dsimp only
  rw [List.map_append, List.map_cons, if_pos (beq_self_eq_true _),
    map_update_of_ne fun x hx => hother x (List.mem_append_left _ hx),
    map_update_of_ne fun x hx => hother x (List.mem_append_right _ hx)]

theorem distinct_at (hd : Distinct (early ++ m :: late)) (hk : m'.sequence = m.sequence) :
    Distinct (early ++ [m'] ++ late) := by
  unfold Distinct at hd ⊢
  simpa [hk] using hd

end Place

theorem Sound.update {q : Queue} (h : q.Sound) (s : UInt64) (f : Message → Message)
    (hf : ∀ m, m.sequence = s → (f m).sequence = s)
    (hs : ∀ m, q.find? s = some m → (f m).Sound q.maxFlight) : (q.update s f).Sound := by
  have hr : List.Forall₂ (fun m m' => m ∈ q.ring ∧ m' = if m.sequence == s then f m else m)
      q.ring (q.update s f).ring :=
    (List.forall₂_and_left q.ring _).mpr ⟨fun _ hm => hm, forall₂_map _ _⟩
  refine h.of_forall₂ hr ?_ ?_ rfl rfl
  · rintro m m' ⟨_, rfl⟩
    by_cases hm : m.sequence = s
    · simp [hm, hf m hm]
    · simp [hm]
  · rintro m m' hm ⟨hmem, rfl⟩
    by_cases he : m.sequence = s
    · simpa [he] using hs m (h.find?_iff.mpr ⟨hmem, he⟩)
    · simpa [he] using hm

theorem filter_ne_cons_of_notMem {l : List Message} {s : UInt64}
    (h : s ∉ l.map (·.sequence)) : l.filter (·.sequence != s) = l := by
  apply List.filter_eq_self.mpr
  intro m hm
  have : m.sequence ≠ s := fun he => h (he ▸ List.mem_map_of_mem hm)
  simpa using this

theorem eraseP_eq_filter {l : List Message} (hd : Distinct l) (s : UInt64) :
    l.eraseP (·.sequence == s) = l.filter (·.sequence != s) := by
  induction l with
  | nil => rfl
  | cons m l ih =>
    obtain ⟨hnot, hd'⟩ := List.nodup_cons.mp hd
    by_cases hm : m.sequence = s
    · have hn : s ∉ l.map (·.sequence) := hm ▸ hnot
      simp [hm, filter_ne_cons_of_notMem hn]
    · simp [hm, ih hd']

theorem remove_fields (q : Queue) (s : UInt64) :
    (q.remove s).chunkSize = q.chunkSize ∧ (q.remove s).maxFlight = q.maxFlight ∧
      (q.remove s).nextNumber = q.nextNumber := by
  unfold remove
  split <;> exact ⟨rfl, rfl, rfl⟩

theorem ring_remove {q : Queue} (hd : Distinct q.ring) (s : UInt64) :
    (q.remove s).ring = q.ring.filter (·.sequence != s) := by
  rw [← eraseP_eq_filter hd, List.eraseP_eq_eraseIdx]
  unfold remove
  cases q.ring.findIdx? (·.sequence == s) <;> rfl

/-- Taking several messages out, one after the other. -/
theorem foldl_remove (gone : List UInt64) {q : Queue} (hd : Distinct q.ring) :
    (gone.foldl remove q).ring = q.ring.filter (fun m => !gone.contains m.sequence) ∧
      (gone.foldl remove q).chunkSize = q.chunkSize ∧
      (gone.foldl remove q).maxFlight = q.maxFlight ∧
      (gone.foldl remove q).nextNumber = q.nextNumber := by
  induction gone generalizing q with
  | nil => exact ⟨by simp, rfl, rfl, rfl⟩
  | cons s gone ih =>
    have hring := ring_remove hd s
    obtain ⟨hc, hw, hn⟩ := remove_fields q s
    obtain ⟨h1, h2, h3, h4⟩ := ih (q := q.remove s) (hring ▸ distinct_filter hd _)
    refine ⟨?_, h2.trans hc, h3.trans hw, h4.trans hn⟩
    rw [List.foldl_cons, h1, hring, List.filter_filter]
    apply List.filter_congr
    intro m _
    by_cases hm : m.sequence = s <;> simp [hm]

theorem find?_remove {q : Queue} (hd : Distinct q.ring) (s t : UInt64) :
    (q.remove s).find? t = if t = s then none else q.find? t := by
  have := find?_filter_sequence q.ring (· != s) t
  unfold find?
  rw [ring_remove hd, this]
  by_cases ht : t = s <;> simp [ht]

theorem Sound.remove {q : Queue} (h : q.Sound) (s : UInt64) : (q.remove s).Sound := by
  obtain ⟨_, hw, hn⟩ := remove_fields q s
  exact h.of_filter _ (ring_remove h.distinct s) hn hw

/-! ## A chunk that was written -/

theorem find?_markWritten (q : Queue) (s t : UInt64) :
    (q.markWritten s).find? t =
      if t = s then (q.find? s).map Message.markWritten else q.find? t :=
  find?_update q s Message.markWritten (fun _ h => h) t

theorem message_of_markWritten {q : Queue} {s t : UInt64} {m' : Message}
    (hm' : (q.markWritten s).find? t = some m') :
    ∃ m, q.find? t = some m ∧ m' = if t = s then m.markWritten else m := by
  rw [find?_markWritten] at hm'
  by_cases ht : t = s
  · subst ht
    rw [if_pos rfl] at hm'
    obtain ⟨m, hm, rfl⟩ := Option.map_eq_some_iff.mp hm'
    exact ⟨m, hm, (if_pos rfl).symm⟩
  · rw [if_neg ht] at hm'
    exact ⟨m', hm', (if_neg ht).symm⟩

theorem find?_eq_none_of_markWritten {q : Queue} {s t : UInt64}
    (hnone : (q.markWritten s).find? t = none) : q.find? t = none := by
  rw [find?_markWritten] at hnone
  by_cases ht : t = s
  · rw [if_pos ht, Option.map_eq_none_iff] at hnone
    exact ht ▸ hnone
  · rw [if_neg ht] at hnone
    exact hnone

theorem Sound.markWritten {q : Queue} (h : q.Sound) (s : UInt64) : (q.markWritten s).Sound :=
  h.update s Message.markWritten (fun _ hm => hm) fun _ hm => (h.message hm).markWritten

/-! ## An acknowledgement -/

/-- What an acknowledgement can do to a queue. -/
inductive Acknowledges (q : Queue) (ack : Chunk.Header) : Bool → Queue → Prop
  | ignored (h : ∀ m, q.find? ack.sequence = some m →
      m.acknowledge? ack.total ack.index.toNat = none) : Acknowledges q ack false q
  | progress (m m' : Message) (found : q.find? ack.sequence = some m)
      (taken : m.acknowledge? ack.total ack.index.toNat = some m') (open_ : m'.allAcked = false) :
      Acknowledges q ack true (q.update ack.sequence fun _ => m')
  | settled (m m' : Message) (found : q.find? ack.sequence = some m)
      (taken : m.acknowledge? ack.total ack.index.toNat = some m') (all : m'.allAcked = true) :
      Acknowledges q ack true ((q.update ack.sequence fun _ => m').remove ack.sequence)

theorem acknowledges_acknowledge (q : Queue) (ack : Chunk.Header) :
    Acknowledges q ack (q.acknowledge ack).1 (q.acknowledge ack).2 := by
  unfold acknowledge
  cases hf : q.find? ack.sequence with
  | none => exact .ignored (by simp [hf])
  | some m =>
    rw [Option.bind_some]
    cases ha : m.acknowledge? ack.total ack.index.toNat with
    | none => exact .ignored (by simp [hf, ha])
    | some m' =>
      cases hall : m'.allAcked with
      | false => simpa [hall] using Acknowledges.progress m m' hf ha hall
      | true => simpa [hall] using Acknowledges.settled m m' hf ha hall

theorem acknowledge?_sequence {q : Queue} {ack : Chunk.Header} {m m' : Message}
    (hf : q.find? ack.sequence = some m)
    (ha : m.acknowledge? ack.total ack.index.toNat = some m') : m'.sequence = ack.sequence :=
  (Message.kin_of_acknowledge? ha).sequence.trans (Sound.sequence hf)

theorem filter_update (l : List Message) (s : UInt64) (f : Message → Message)
    (hf : ∀ m, m.sequence = s → (f m).sequence = s) :
    (l.map fun m => if m.sequence == s then f m else m).filter (·.sequence != s) =
      l.filter (·.sequence != s) := by
  induction l with
  | nil => rfl
  | cons m l ih =>
    by_cases hm : m.sequence = s
    · simpa [hm, hf m hm] using ih
    · simpa [hm] using ih

/-- A message that is changed and then taken out is just taken out. -/
theorem ring_remove_update {q : Queue} (hd : Distinct q.ring) (s : UInt64)
    (f : Message → Message) (hf : ∀ m, m.sequence = s → (f m).sequence = s) :
    ((q.update s f).remove s).ring = (q.remove s).ring := by
  rw [ring_remove (distinct_update hd s f hf), ring_remove hd]
  exact filter_update q.ring s f hf

theorem Sound.acknowledges {q q' : Queue} (h : q.Sound) {ack : Chunk.Header} {b : Bool}
    (ha : Acknowledges q ack b q') :
    q'.Sound ∧ q'.chunkSize = q.chunkSize ∧ q'.maxFlight = q.maxFlight ∧
      q'.nextNumber = q.nextNumber := by
  cases ha with
  | ignored => exact ⟨h, rfl, rfl, rfl⟩
  | progress m m' found taken open_ =>
    refine ⟨h.update _ _ (fun _ _ => acknowledge?_sequence found taken) ?_, rfl, rfl, rfl⟩
    exact fun _ _ => (h.message found).acknowledge? taken open_
  | settled m m' found taken all =>
    have hring := ring_remove_update h.distinct ack.sequence (fun _ => m')
      fun _ _ => acknowledge?_sequence found taken
    obtain ⟨hc, hw, hn⟩ := remove_fields (q.update ack.sequence fun _ => m') ack.sequence
    refine ⟨h.of_filter _ (hring.trans (ring_remove h.distinct _)) hn hw, hc, hw, hn⟩

theorem find?_progress {q : Queue} {ack : Chunk.Header} {m m' : Message}
    (found : q.find? ack.sequence = some m)
    (taken : m.acknowledge? ack.total ack.index.toNat = some m') (t : UInt64) :
    (q.update ack.sequence fun _ => m').find? t =
      if t = ack.sequence then some m' else q.find? t := by
  rw [find?_update q ack.sequence (fun _ => m') fun _ _ => acknowledge?_sequence found taken]
  rw [found, Option.map_some]

theorem find?_settled {q : Queue} (h : q.Sound) {ack : Chunk.Header} {m m' : Message}
    (found : q.find? ack.sequence = some m)
    (taken : m.acknowledge? ack.total ack.index.toNat = some m') (t : UInt64) :
    ((q.update ack.sequence fun _ => m').remove ack.sequence).find? t =
      if t = ack.sequence then none else q.find? t := by
  rw [← find?_remove h.distinct]
  unfold find?
  rw [ring_remove_update h.distinct _ _ fun _ _ => acknowledge?_sequence found taken]

/-- A message that stays through an acknowledgement. -/
theorem message_of_acknowledges {q q' : Queue} (h : q.Sound) {ack : Chunk.Header} {b : Bool}
    (ha : Acknowledges q ack b q') {n : UInt64} {m' : Message} (hm' : q'.find? n = some m') :
    q.find? n = some m' ∨ n = ack.sequence ∧ ∃ m, q.find? n = some m ∧
      m.acknowledge? ack.total ack.index.toNat = some m' ∧ m'.allAcked = false := by
  cases ha with
  | ignored => exact Or.inl hm'
  | progress m m₁ found taken open_ =>
    rw [find?_progress found taken] at hm'
    by_cases hn : n = ack.sequence
    · rw [if_pos hn] at hm'
      cases hm'
      exact Or.inr ⟨hn, m, hn ▸ found, taken, open_⟩
    · rw [if_neg hn] at hm'
      exact Or.inl hm'
  | settled m m₁ found taken all =>
    rw [find?_settled h found taken] at hm'
    by_cases hn : n = ack.sequence
    · simp [hn] at hm'
    · rw [if_neg hn] at hm'
      exact Or.inl hm'

/-- An acknowledgement of a chunk that its message has sent makes the chunk count as
acknowledged, if the message stays. -/
theorem acked_of_acknowledges {q q' : Queue} (h : q.Sound) {ack : Chunk.Header} {b : Bool}
    (ha : Acknowledges q ack b q') {m m' : Message} (hm : q.find? ack.sequence = some m)
    (hr : m.reliable = true) (ht : ack.total.toNat = m.total)
    (hi : ack.index.toNat < m.firstUnsent) (hm' : q'.find? ack.sequence = some m') :
    ack.index.toNat ∈ m'.acked := by
  cases ha with
  | ignored hvain =>
    cases hm.symm.trans hm'
    by_contra hnot
    have htaken := Message.acknowledge?_eq_some_iff.mpr ⟨⟨hr, ht, hi, hnot⟩, rfl⟩
    rw [hvain m hm] at htaken
    cases htaken
  | progress m₀ m₁ found taken =>
    rw [find?_progress found taken, if_pos rfl] at hm'
    cases hm'
    rw [(Message.acknowledge?_eq_some_iff.mp taken).2]
    exact Std.TreeSet.mem_insert_self
  | settled m₀ m₁ found taken =>
    rw [find?_settled h found taken, if_pos rfl] at hm'
    cases hm'

/-! ## A resend tick -/

theorem find?_filter {l : List Message} (hd : Distinct l) (p : Message → Bool) (s : UInt64) :
    (l.filter p).find? (·.sequence == s) = (l.find? (·.sequence == s)).filter p := by
  ext m
  rw [find?_eq_some_iff (distinct_filter hd p), Option.filter_eq_some_iff,
    find?_eq_some_iff hd, List.mem_filter]
  constructor
  · rintro ⟨⟨hm, hp⟩, hs⟩
    exact ⟨⟨hm, hs⟩, hp⟩
  · rintro ⟨⟨hm, hs⟩, hp⟩
    exact ⟨⟨hm, hp⟩, hs⟩

/-- The numbers of the messages that pass a test tell which ones these are. -/
theorem contains_sequence {l : List Message} (hd : Distinct l) (p : Message → Bool) {m : Message}
    (hm : m ∈ l) : ((l.filter p).map (·.sequence)).contains m.sequence = p m := by
  rw [Bool.eq_iff_iff, List.contains_iff_mem, List.mem_map]
  constructor
  · rintro ⟨x, hx, he⟩
    obtain ⟨hx, hg⟩ := List.mem_filter.mp hx
    rwa [List.inj_on_of_nodup_map hd hx hm he] at hg
  · exact fun hg => ⟨m, List.mem_filter.mpr ⟨hm, hg⟩, rfl⟩

theorem tickMessage_sequence (W a b : Nat) (m : Message) :
    (tickMessage W a b m).2.1.sequence = m.sequence :=
  (Message.ticks_tickMessage W a b m).kin.sequence

theorem distinct_tick {l : List Message} (hd : Distinct l) (W a b : Nat) :
    Distinct (l.map fun m => (tickMessage W a b m).2.1) := by
  have := map_sequence_forall₂ (forall₂_map l fun m => (tickMessage W a b m).2.1)
    fun m m' h => h ▸ tickMessage_sequence W a b m
  unfold Distinct
  rw [this]
  exact hd

/-- The ring after a tick: each message as the tick leaves it, without those that it
removes. -/
theorem ring_tick {q : Queue} (hd : Distinct q.ring) (a b : Nat) :
    (q.tick a b).2.ring =
      (q.ring.filter fun m => !(tickMessage q.maxFlight a b m).1).map
        fun m => (tickMessage q.maxFlight a b m).2.1 := by
  unfold tick
  dsimp only
  rw [(foldl_remove _ (by simpa [Function.comp_def] using distinct_tick hd q.maxFlight a b)).1]
  simp only [List.map_map, Function.comp_def, List.filter_map]
  congr 1
  refine List.filter_congr fun m hm => congrArg _ ?_
  simp only [tickMessage_sequence]
  exact contains_sequence hd _ hm

theorem tick_fields {q : Queue} (hd : Distinct q.ring) (a b : Nat) :
    (q.tick a b).2.chunkSize = q.chunkSize ∧ (q.tick a b).2.maxFlight = q.maxFlight ∧
      (q.tick a b).2.nextNumber = q.nextNumber := by
  unfold tick
  dsimp only
  exact (foldl_remove _ (by simpa [Function.comp_def] using distinct_tick hd q.maxFlight a b)).2

theorem find?_tick {q : Queue} (h : q.Sound) (a b : Nat) (s : UInt64) :
    (q.tick a b).2.find? s = (q.find? s).bind fun m =>
      if (tickMessage q.maxFlight a b m).1 then none
      else some (tickMessage q.maxFlight a b m).2.1 := by
  unfold find?
  rw [ring_tick h.distinct, find?_map _ _ (tickMessage_sequence _ a b), find?_filter h.distinct]
  cases q.ring.find? (·.sequence == s) with
  | none => rfl
  | some m => cases hg : (tickMessage q.maxFlight a b m).1 <;> simp [hg]

theorem Sound.tick {q : Queue} (h : q.Sound) (a b : Nat) : (q.tick a b).2.Sound := by
  obtain ⟨_, hw, hn⟩ := tick_fields h.distinct a b
  have hring := ring_tick h.distinct a b
  have hkept : ({ q with ring := q.ring.filter fun m => !(tickMessage q.maxFlight a b m).1 } :
      Queue).Sound := h.of_filter _ rfl rfl rfl
  have hr : List.Forall₂ (fun m m' => (tickMessage q.maxFlight a b m).1 = false ∧
      m' = (tickMessage q.maxFlight a b m).2.1)
      (q.ring.filter fun m => !(tickMessage q.maxFlight a b m).1) (q.tick a b).2.ring := by
    rw [hring]
    refine (List.forall₂_and_left _ _).mpr ⟨fun m hm => ?_, forall₂_map _ _⟩
    simpa using (List.mem_filter.mp hm).2
  refine hkept.of_forall₂ hr ?_ ?_ hn hw
  · rintro m m' ⟨_, rfl⟩
    exact tickMessage_sequence _ a b m
  · rintro m m' hm ⟨hg, rfl⟩
    have ht := Message.ticks_tickMessage q.maxFlight a b m
    rw [hg] at ht
    exact hm.ticks ht

/-- A message that stays through a tick. -/
theorem ticks_of_find? {q : Queue} (h : q.Sound) {a b : Nat} {s : UInt64} {m' : Message}
    (hm' : (q.tick a b).2.find? s = some m') :
    ∃ m t, q.find? s = some m ∧ Message.Ticks q.maxFlight a b m false m' t := by
  rw [find?_tick h] at hm'
  obtain ⟨m, hm, he⟩ := Option.bind_eq_some_iff.mp hm'
  have ht := Message.ticks_tickMessage q.maxFlight a b m
  cases hg : (tickMessage q.maxFlight a b m).1 with
  | true => simp [hg] at he
  | false =>
    simp only [hg, Bool.false_eq_true, ↓reduceIte, Option.some.injEq] at he
    rw [hg, he] at ht
    exact ⟨m, _, hm, ht⟩

/-- A message that a tick removes. -/
theorem ticks_of_find?_none {q : Queue} (h : q.Sound) {a b : Nat} {s : UInt64} {m : Message}
    (hm : q.find? s = some m) (hm' : (q.tick a b).2.find? s = none) :
    ∃ m' t, Message.Ticks q.maxFlight a b m true m' t := by
  rw [find?_tick h, hm, Option.bind_some] at hm'
  have ht := Message.ticks_tickMessage q.maxFlight a b m
  cases hg : (tickMessage q.maxFlight a b m).1 with
  | true =>
    rw [hg] at ht
    exact ⟨_, _, ht⟩
  | false => simp [hg] at hm'

/-- A tick reports what it made of the messages, taken together. -/
theorem tick_fst (q : Queue) (a b : Nat) :
    (q.tick a b).1 =
      { resent := (q.ring.map fun m => (tickMessage q.maxFlight a b m).2.2.resent).sum
        abandoned := q.ring.flatMap fun m => (tickMessage q.maxFlight a b m).2.2.abandoned
        purged := (q.ring.map fun m => (tickMessage q.maxFlight a b m).2.2.purged).sum } := by
  have hfold : ∀ (l : List Message) (t : Tick),
      (l.map (tickMessage q.maxFlight a b)).foldl (fun t x =>
        ⟨t.resent + x.2.2.resent, t.abandoned ++ x.2.2.abandoned, t.purged + x.2.2.purged⟩) t =
      { resent := t.resent + (l.map fun m => (tickMessage q.maxFlight a b m).2.2.resent).sum
        abandoned := t.abandoned ++ l.flatMap fun m => (tickMessage q.maxFlight a b m).2.2.abandoned
        purged := t.purged + (l.map fun m => (tickMessage q.maxFlight a b m).2.2.purged).sum } := by
    intro l
    induction l with
    | nil => simp
    | cons m l ih =>
      intro t
      rw [List.map_cons, List.foldl_cons, ih]
      simp [Nat.add_assoc]
  refine (hfold q.ring {}).trans ?_
  simp

theorem sum_map_ite (p : Message → Bool) (f : Message → Nat) (l : List Message) :
    (l.map fun m => if p m then f m else 0).sum = ((l.filter p).map f).sum := by
  induction l with
  | nil => rfl
  | cons m l ih => cases hm : p m <;> simp [hm, ih]

/-- The messages that a tick gives up: reliable ones that wait too long. -/
theorem mem_abandoned {q : Queue} (h : q.Sound) {a b : Nat} {n : UInt64} :
    n ∈ (q.tick a b).1.abandoned ↔
      ∃ m, q.find? n = some m ∧ m.reliable = true ∧ b ≤ m.stalledTicks + 1 := by
  have hmem : n ∈ (q.tick a b).1.abandoned ↔
      ∃ m ∈ q.ring, n ∈ (tickMessage q.maxFlight a b m).2.2.abandoned := by
    rw [tick_fst, List.mem_flatMap]
  have hone : ∀ m, n ∈ (tickMessage q.maxFlight a b m).2.2.abandoned ↔
      m.sequence = n ∧ m.reliable = true ∧ b ≤ m.stalledTicks + 1 := by
    intro m
    have ht := Message.ticks_tickMessage q.maxFlight a b m
    generalize tickMessage q.maxFlight a b m = result at ht
    obtain ⟨gone, m', t⟩ := result
    dsimp only at ht ⊢
    cases ht with
    | finished kind => simp [kind]
    | unfinished kind => simp [kind]
    | abandoned kind late => simp [kind, late, eq_comm]
    | again kind early => simp [kind, Nat.not_le.mpr early]
    | waits kind early => simp [kind, Nat.not_le.mpr early]
  rw [hmem]
  constructor
  · rintro ⟨m, hm, hn⟩
    obtain ⟨hs, hrest⟩ := (hone m).mp hn
    exact ⟨m, h.find?_iff.mpr ⟨hm, hs⟩, hrest⟩
  · rintro ⟨m, hm, hrest⟩
    obtain ⟨hmem, hs⟩ := h.find?_iff.mp hm
    exact ⟨m, hmem, (hone m).mpr ⟨hs, hrest⟩⟩

/-! ## Dropping a peer -/

theorem ring_dropTo {q : Queue} (hd : Distinct q.ring) (dest : SocketAddr) :
    (q.dropTo dest).2.ring = q.ring.filter (·.dest != dest) := by
  unfold dropTo
  dsimp only
  rw [(foldl_remove _ hd).1]
  exact List.filter_congr fun m hm => congrArg _ (contains_sequence hd _ hm)

theorem find?_dropTo {q : Queue} (h : q.Sound) (dest : SocketAddr) (s : UInt64) :
    (q.dropTo dest).2.find? s = (q.find? s).filter (·.dest != dest) := by
  unfold find?
  rw [ring_dropTo h.distinct, find?_filter h.distinct]

theorem dropTo_fields {q : Queue} (hd : Distinct q.ring) (dest : SocketAddr) :
    (q.dropTo dest).2.chunkSize = q.chunkSize ∧ (q.dropTo dest).2.maxFlight = q.maxFlight ∧
      (q.dropTo dest).2.nextNumber = q.nextNumber :=
  (foldl_remove _ hd).2

theorem Sound.dropTo {q : Queue} (h : q.Sound) (dest : SocketAddr) : (q.dropTo dest).2.Sound := by
  obtain ⟨_, hw, hn⟩ := dropTo_fields h.distinct dest
  exact h.of_filter _ (ring_dropTo h.distinct dest) hn hw

end Courier.Outbound.Queue
