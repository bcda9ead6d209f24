import Courier.Proofs.Outbound.Run

/-!
The scheduler is fair. Main statement: of two messages that both have chunks for the
wire, neither gets a second turn before the other has had one, whatever is taken in,
taken out, acknowledged or sent again in the meantime; and the scheduler only finds
nothing if there is nothing.
-/

namespace Courier.Outbound

namespace Queue

/-- If both messages are in the queue, the first one has its turn before the second. -/
def Ahead (q : Queue) (y x : UInt64) : Prop :=
  y ∈ q.turns → x ∈ q.turns → [y, x].Sublist q.turns

theorem Ahead.keeps {q q' : Queue} {y x : UInt64} (h : q.Ahead y x) (hk : Keeps q q') :
    q'.Ahead y x := by
  obtain ⟨_, keep, hturns⟩ := hk
  intro hy hx
  rw [hturns, List.mem_filter] at hy hx
  have := (h hy.1 hx.1).filter keep
  rwa [List.filter_cons_of_pos hy.2, List.filter_cons_of_pos hx.2, List.filter_nil,
    ← hturns] at this

theorem Ahead.register {q q' : Queue} {y x : UInt64} (h : q.Ahead y x) (hs : q.Sound)
    (hp : q.Placed) {dest : SocketAddr} {data : Bytes} {reliable : Bool} {n : UInt64}
    (hr : q.register dest data reliable = .ok (n, q')) (hy : y ≠ n) (hx : x ≠ n) :
    q'.Ahead y x := by
  have hold : ∀ t ≠ n, t ∈ q'.turns → t ∈ q.turns := by
    intro t ht hmem
    obtain ⟨m, hm⟩ := mem_turns.mp hmem
    rcases message_of_register hs hr hm with ⟨heq, _⟩ | ⟨_, hm⟩
    · exact absurd heq ht
    · exact mem_turns.mpr ⟨m, hm⟩
  exact fun hmy hmx => (h (hold y hy hmy) (hold x hx hmx)).trans (hp.turns_register hr)

/-- A message that has a chunk keeps its place before another one, which gets no turn, until
it gets one itself. -/
theorem Ahead.next {q : Queue} {y x : UInt64} (h : q.Ahead y x) (hs : q.Sound) (hp : q.Placed)
    (hable : q.Able y) (hsilent : ∀ o, q.next.1 = some o → o.header.sequence ≠ y) :
    q.next.2.Ahead y x ∧ ∀ o, q.next.1 = some o → o.header.sequence ≠ x := by
  have ht := (hp.next hs).2
  have hd := hs.nodup_turns
  have hy : y ∈ q.turns := mem_turns.mpr (hable.imp fun _ hm => hm.1)
  generalize q.next = result at ht hsilent ⊢
  obtain ⟨out, q'⟩ := result
  dsimp only at ht hsilent ⊢
  cases ht with
  | idle _ same => exact ⟨fun hy hx => same ▸ h (same ▸ hy) (same ▸ hx), by simp⟩
  | found o _ vain later first notAble moved =>
    have hlater : x ∈ q.turns → [y, x].Sublist later := by
      intro hx
      have hsub := h hy hx
      rw [first, List.append_cons] at hsub
      refine sublist_of_notMem hsub fun hmem => ?_
      rcases List.mem_append.mp hmem with hmem | hmem
      · exact notAble y hmem hable
      · exact hsilent o rfl (List.mem_singleton.mp hmem).symm
    refine ⟨fun _ hx => ?_, ?_⟩
    · have hx' : x ∈ q.turns := by
        rw [moved] at hx
        rw [first]
        simp only [List.mem_append, List.mem_cons, List.not_mem_nil, or_false] at hx ⊢
        tauto
      rw [moved]
      exact (hlater hx').trans (List.sublist_append_left _ _)
    · rintro o' ho rfl
      cases ho
      have hmem := (hlater (by rw [first]; simp)).subset (List.mem_cons_of_mem y List.mem_cons_self)
      rw [first, List.nodup_middle] at hd
      exact (List.nodup_cons.mp hd).1 (List.mem_append_right _ hmem)

/-- After its turn a message comes after all others. -/
theorem ahead_of_next {q : Queue} (hs : q.Sound) (hp : q.Placed) {o : Outgoing}
    (ho : q.next.1 = some o) {y : UInt64} (hy : y ∈ q.turns) (hne : y ≠ o.header.sequence) :
    q.next.2.Ahead y o.header.sequence := by
  have ht := (hp.next hs).2
  generalize q.next = result at ht ho ⊢
  obtain ⟨out, q'⟩ := result
  dsimp only at ht ho ⊢
  cases ht with
  | idle => cases ho
  | found o' _ vain later first notAble moved =>
    cases ho
    intro _ _
    rw [moved, ← List.append_assoc]
    refine List.Sublist.append (List.singleton_sublist.mpr ?_) (List.Sublist.refl [_])
    rw [first] at hy
    simp only [List.mem_append, List.mem_cons] at hy ⊢
    tauto

end Queue

namespace History

variable {cs W : Nat} {h : History} {x y : UInt64}

/-- The first of two known messages has its turn before the second. -/
structure Waits (h : History) (y x : UInt64) : Prop where
  ahead : h.queue.Ahead y x
  known : y.toNat < h.queue.nextNumber.toNat ∧ x.toNat < h.queue.nextNumber.toNat

/-- No operation but a turn of the first message changes that. -/
theorem Waits.step (hw : Waits h y x) (hs : Sound cs W h) (e : Event)
    (hable : e = .next → h.queue.Able y)
    (hsilent : e = .next → ∀ o, h.queue.next.1 = some o → o.header.sequence ≠ y) :
    Waits (h.step e) y x := by
  have hle := hs.nextNumber_le e
  refine ⟨?_, Nat.lt_of_lt_of_le hw.known.1 hle, Nat.lt_of_lt_of_le hw.known.2 hle⟩
  cases e with
  | register dest data reliable =>
    cases hr : h.queue.register dest data reliable with
    | error _ =>
      rw [step_of_error hr]
      exact hw.ahead
    | ok result =>
      obtain ⟨hn, _⟩ := Queue.register_fields hr
      rw [step_of_ok hr]
      refine hw.ahead.register hs.queue hs.placed hr ?_ ?_
      · rintro rfl
        exact Nat.lt_irrefl _ (hn ▸ hw.known.1)
      · rintro rfl
        exact Nat.lt_irrefl _ (hn ▸ hw.known.2)
  | next => exact (hw.ahead.next hs.queue hs.placed (hable rfl) (hsilent rfl)).1
  | markWritten s =>
    exact hw.ahead.keeps (hs.placed.keeps_update s Message.markWritten fun _ hm => hm)
  | acknowledge ack => exact hw.ahead.keeps (hs.placed.keeps_acknowledge hs.queue ack)
  | tick a b => exact hw.ahead.keeps (hs.placed.keeps_tick hs.queue a b)
  | dropTo dest => exact hw.ahead.keeps (hs.placed.keeps_remove hs.queue.distinct _)

/-- After a turn of one message the others wait before it. -/
theorem waits_of_emitsAt {events : List Event} {i : Nat} (hx : EmitsAt cs W events x i)
    (hy : (after cs W events i).queue.contains y = true) (hne : y ≠ x) :
    Waits (after cs W events (i + 1)) y x := by
  obtain ⟨hnext, o, ho, rfl⟩ := hx
  have hs := sound_after cs W events i
  obtain ⟨m, hm⟩ := Option.isSome_iff_exists.mp hy
  obtain ⟨m', _, hm', _⟩ := Queue.emits_of_next hs.queue ho
  have hle := hs.nextNumber_le .next
  rw [after_succ hnext]
  refine ⟨Queue.ahead_of_next hs.queue hs.placed ho (Queue.mem_turns.mpr ⟨m, hm⟩) hne, ?_, ?_⟩
  · exact Nat.lt_of_lt_of_le (hs.queue.lt_next hm) hle
  · exact Nat.lt_of_lt_of_le (hs.queue.lt_next hm') hle

/-- Between two turns of one message another one that waits has a turn. -/
theorem exists_turn_between {events : List Event} {i j : Nat} (hij : i < j) (hne : y ≠ x)
    (first : EmitsAt cs W events x i) (second : EmitsAt cs W events x j)
    (there : (after cs W events i).queue.contains y = true)
    (able : ∀ k, i < k → k ≤ j → events[k]? = some .next → (after cs W events k).queue.Able y) :
    ∃ k, i < k ∧ k < j ∧ EmitsAt cs W events y k := by
  by_contra hnone
  push Not at hnone
  have hsilent : ∀ k, i < k → k < j → events[k]? = some .next →
      ∀ o, (after cs W events k).queue.next.1 = some o → o.header.sequence ≠ y :=
    fun k hik hkj he o ho hy => hnone k hik hkj ⟨he, o, ho, hy⟩
  have hlen : j < events.length := (List.getElem?_eq_some_iff.mp second.1).1
  -- as long as `y` has no turn, its place is before that of `x`
  have hwaits : ∀ k, i + 1 ≤ k → k ≤ j → Waits (after cs W events k) y x := by
    intro k hik
    induction k, hik using Nat.le_induction with
    | base => exact fun _ => waits_of_emitsAt first there hne
    | succ k hik ih =>
      intro hkj
      have he : events[k]? = some events[k] := List.getElem?_eq_getElem (by omega)
      rw [after_succ he]
      refine (ih (by omega)).step (sound_after cs W events k) _ ?_ ?_
      · exact fun hn => able k hik (by omega) (hn ▸ he)
      · exact fun hn => hsilent k hik (by omega) (hn ▸ he)
  obtain ⟨hnext, o, ho, hox⟩ := second
  have hs := sound_after cs W events j
  refine ((hwaits j hij (Nat.le_refl j)).ahead.next hs.queue hs.placed
    (able j hij (Nat.le_refl j) hnext) ?_).2 o ho hox
  intro o' ho' hy
  cases ho.symm.trans ho'
  exact hne (hy.symm.trans hox)

/-- A look for the next chunk is in vain only if no message has one. -/
theorem Sound.not_able_of_next (hs : Sound cs W h) (hnone : h.queue.next.1 = none) (n : UInt64) :
    ¬ h.queue.Able n := by
  rintro ⟨m, hm, hcan⟩
  refine (hs.queue.message hm).canEmit_iff.mp hcan ?_
  exact Queue.emit_none_of_next hnone m (hs.queue.find?_iff.mp hm).1

/-- The scheduler is fair. If a message has two turns, then every other one that was in the
ring at the first, and had a chunk for the wire whenever one was picked since, up to the
second, had a turn between the two. And nothing is picked only if no message has a chunk
for the wire. -/
theorem fair_run (cs W : Nat) (events : List Event) :
    (∀ (i j : Nat) (x y : UInt64), i < j → y ≠ x →
      EmitsAt cs W events x i → EmitsAt cs W events x j →
      (after cs W events i).queue.contains y = true →
      (∀ k, i < k → k ≤ j → events[k]? = some .next → (after cs W events k).queue.Able y) →
      ∃ k, i < k ∧ k < j ∧ EmitsAt cs W events y k) ∧
    ∀ k, (after cs W events k).queue.next.1 = none →
      ∀ n, ¬ (after cs W events k).queue.Able n :=
  ⟨fun _ _ _ _ hij hne first second there able =>
      exists_turn_between hij hne first second there able,
    fun k hnone n => (sound_after cs W events k).not_able_of_next hnone n⟩

/-- Two messages of two chunks each, to one peer. -/
def twoMessages : List Event :=
  let peer : SocketAddr := { ip := .v4 127 0 0 1, port := 7001 }
  [.register peer [1, 2] true, .register peer [3, 4] true, .next, .next, .next]

theorem fair_twoMessages :
    EmitsAt 1 4 twoMessages 0 2 ∧ EmitsAt 1 4 twoMessages 0 4 ∧
      ∃ k, 2 < k ∧ k < 4 ∧ EmitsAt 1 4 twoMessages 1 k := by
  have first : EmitsAt 1 4 twoMessages 0 2 := ⟨rfl, _, rfl, rfl⟩
  have second : EmitsAt 1 4 twoMessages 0 4 := ⟨rfl, _, rfl, rfl⟩
  refine ⟨first, second, (fair_run 1 4 twoMessages).1 2 4 0 1 (by decide) (by decide) first second
    (by decide) ?_⟩
  intro k hik hkj _
  obtain rfl | rfl : k = 3 ∨ k = 4 := by omega
  · exact ⟨_, rfl, Or.inr ⟨by decide, by decide⟩⟩
  · exact ⟨_, rfl, Or.inr ⟨by decide, by decide⟩⟩

end History

end Courier.Outbound
