import Courier.Proofs.Stream.Custody

/-!
The polls of the connections that this side opened. Nothing gets lost, whatever becomes of
the slots in the meantime, and the slots have their turns one after the other.
-/

namespace Courier.Stream.Service

section

variable {s : Service} {e : Event} {x y : Nat}

/-! ## Slots that last -/

/-- Unless the pool is torn down, its cursor only moves with a poll; and whoever was there
before is in the slot it was in. -/
theorem Sound.stays (h : s.Sound) (hother : e ≠ .poll .outbound) :
    (∀ k, k ∉ (s.step e).channel.pool.connections) ∨
      (s.step e).channel.pool.lap = s.channel.pool.lap ∧
        ∀ i, ∀ k < s.roster.size, (s.step e).channel.pool.slot? i = some k →
          s.channel.pool.slot? i = some k := by
  have hs := steps_step h.pool h.placed e
  generalize s.step e = s' at hs
  have hlap {pool : Pool Nat} (hsize : pool.size = s.channel.pool.size)
      (hcursor : pool.cursor = s.channel.pool.cursor) : pool.lap = s.channel.pool.lap := by
    rw [Pool.lap, hsize, hcursor, Pool.lap]
  have hsame : s.channel.pool.lap = s.channel.pool.lap ∧ ∀ i, ∀ k < s.roster.size,
      s.channel.pool.slot? i = some k → s.channel.pool.slot? i = some k :=
    ⟨rfl, fun _ _ _ hk => hk⟩
  cases hs with
  | idle => exact Or.inr hsame
  | seated a places i pool closed he hcursor _ hinside =>
    refine Or.inr ⟨hlap (Array.size_setIfInBounds.trans he.size) hcursor, fun j k hold hk => ?_⟩
    rw [Pool.slot?_seat (he.size ▸ hinside)] at hk
    split at hk
    · cases hk
      exact absurd hold (Nat.lt_irrefl _)
    · exact (he.of_slot hk).2
  | torn pool closed he =>
    refine Or.inl fun k hk => ?_
    obtain ⟨i, hi⟩ := Pool.mem_connections.mp hk
    have hlt : i < s.channel.pool.size := he.size ▸ Pool.lt_size hi
    exact (he.of_slot hi).1 (List.mem_range.mpr hlt)
  | reclaimed places pool closed he hcursor =>
    exact Or.inr ⟨hlap he.size hcursor, fun _ _ _ hk => (he.of_slot hk).2⟩
  | forgotten => exact Or.inr hsame
  | accepted => exact Or.inr hsame
  | opened => exact Or.inr hsame
  | noted => exact Or.inr hsame
  | happened => exact Or.inr hsame
  | polled side found message roster channel _ _ hp =>
    have hpool : channel.pool = s.channel.pool := by
      have hserved := hp.served
      cases side with
      | outbound => exact absurd rfl hother
      | inbound => cases hserved; rfl
    rw [hpool]
    exact Or.inr hsame

/-- What a poll of the pooled connections comes to. -/
theorem Sound.serves (h : s.Sound) :
    s.channel.pool.Serves s.roster.waiting (s.channel.turn s.roster .outbound)
      (s.step (.poll .outbound)).channel.pool := by
  have hp := Pool.serves_poll s.roster.waiting h.placed
  have hpool : (s.step (.poll .outbound)).channel.pool =
      (s.channel.pool.poll s.roster.waiting).pool := by
    show (s.channel.pollOutbound s.roster).2.2.pool = _
    unfold Channel.pollOutbound
    dsimp only
    split <;> rfl
  rwa [hpool]

/-- A connection is in the slot that it was in. -/
theorem Sound.slot_of_step (h : s.Sound) {i k : Nat} (hk : k < s.roster.size)
    (hi : (s.step e).channel.pool.slot? i = some k) : s.channel.pool.slot? i = some k := by
  by_cases he : e = .poll .outbound
  · subst he
    exact h.serves.slot?_eq i ▸ hi
  · rcases h.stays he with hnone | ⟨_, hslots⟩
    · exact absurd (Pool.mem_connections.mpr ⟨i, hi⟩) (hnone k)
    · exact hslots i k hk hi

theorem Sound.slot_of_after (h : s.Sound) {i k : Nat} (hk : k < s.roster.size)
    {events : List Event} (hi : (s.after events).channel.pool.slot? i = some k) :
    s.channel.pool.slot? i = some k := by
  induction events generalizing s with
  | nil => exact hi
  | cons e events ih =>
    exact h.slot_of_step hk (ih (h.step e) (Nat.lt_of_lt_of_le hk (h.size_le_step e)) hi)

/-- A connection that left its slot comes before all slots. -/
theorem Sound.returned_of_released (h : s.Sound) {k : Nat} (hk : k ∈ s.channel.pool.released)
    {later : List Event} {l : Nat} (hnext : IsNext Channel.pooled .outbound (s.after later) l) :
    s.Returned .outbound later k := by
  have hheld : k ∈ s.channel.held .outbound := Pool.mem_held.mpr (Or.inl hk)
  rcases h.returned_or_held hheld later with hr | ⟨hlast, _⟩
  · exact hr
  · have h' := h.after later
    have hreleased : k ∈ (s.after later).channel.pool.released := by
      refine (Pool.mem_held.mp hlast).resolve_right ?_
      rintro ⟨i, hi⟩
      have hslot := h.slot_of_after (h.known .outbound k hheld) hi
      exact h.outside k hk (Pool.mem_connections.mpr ⟨i, hslot⟩)
    refine h.returned_of_inbox hheld ?_
    have hs := h'.serves
    rw [hnext.1] at hs
    generalize ((s.after later).step (.poll .outbound)).channel.pool = pool at hs
    cases hs with
    | released early _ late order =>
      exact absurd hnext.2 (h'.outside l (order ▸ List.mem_append_right early List.mem_cons_self))
    | slots _ _ _ vain => exact Roster.waiting_eq_false_iff.mp (vain k hreleased)

/-! ## Turns -/

/-- The slot of the first connection has its turn before that of the second. -/
def Ahead (s : Service) (y x : Nat) : Prop :=
  ∃ i j, s.channel.pool.slot? i = some y ∧ s.channel.pool.slot? j = some x ∧
    [i, j].Sublist s.channel.pool.lap

theorem Sound.slot_step (h : s.Sound) {i k : Nat} (hi : s.channel.pool.slot? i = some k)
    (hk : k ∈ (s.step e).channel.pool.connections) :
    (s.step e).channel.pool.slot? i = some k := by
  obtain ⟨j, hj⟩ := Pool.mem_connections.mp hk
  rwa [h.pool.apart hi (h.slot_of_step (h.lt_of_slot hi) hj)]

theorem offers_of_waits {i : Nat} (hi : s.channel.pool.slot? i = some y)
    (hy : Waits Channel.pooled s y) : s.channel.pool.offers s.roster.waiting i = true :=
  Pool.offers_iff.mpr ⟨y, hi, Roster.waiting_iff.mpr hy.2⟩

/-- Who has a message keeps its place before another one until it has its turn. -/
theorem Ahead.step (ha : s.Ahead y x) (h : s.Sound) (hwaits : Waits Channel.pooled s y)
    (hy : y ∈ (s.step e).channel.pool.connections) (hx : x ∈ (s.step e).channel.pool.connections)
    (hsilent : ∀ message, (y, message) ∉ s.yields .outbound e) : (s.step e).Ahead y x := by
  obtain ⟨i, j, hi, hj, hlap⟩ := ha
  refine ⟨i, j, h.slot_step hi hy, h.slot_step hj hx, ?_⟩
  by_cases he : e = .poll .outbound
  · subst he
    have hs := h.serves
    have hturn : s.channel.turn s.roster .outbound ≠ some y := fun hturn => by
      obtain ⟨data, rest, _, hyields⟩ := h.yields_turn hturn
      exact hsilent _ (hyields ▸ List.mem_singleton_self _)
    generalize (s.step (.poll .outbound)).channel.pool = pool at hs
    generalize s.channel.turn s.roster .outbound = found at hs hturn
    cases hs with
    | released => exact hlap
    | slots place cursor _ _ scans seated =>
      refine (scans.ahead (Pool.nodup_lap _) hlap (offers_of_waits hi hwaits) ?_).1
      rintro rfl
      exact hturn (seated.trans hi)
  · rcases h.stays he with hnone | ⟨hsame, _⟩
    · exact absurd hy (hnone y)
    · rwa [hsame]

/-- After its turn a slot comes after all others. -/
theorem Sound.ahead_of_isNext (h : s.Sound) (hx : IsNext Channel.pooled .outbound s x)
    (hy : y ∈ s.channel.pool.connections) (hne : y ≠ x) :
    (s.step (.poll .outbound)).Ahead y x := by
  have hs := h.serves
  rw [hx.1] at hs
  obtain ⟨i, hi⟩ := Pool.mem_connections.mp hy
  unfold Ahead
  generalize (s.step (.poll .outbound)).channel.pool = pool at hs ⊢
  cases hs with
  | released early _ late order =>
    exact absurd hx.2 (h.outside x (order ▸ List.mem_append_right early List.mem_cons_self))
  | slots place cursor _ _ scans seated =>
    obtain ⟨j, rfl, hj⟩ := Option.bind_eq_some_iff.mp seated.symm
    refine ⟨i, j, hi, hj, scans.last (Pool.mem_lap.mpr (Pool.lt_size hi)) ?_⟩
    rintro rfl
    exact hne (Option.some.inj (hi.symm.trans hj))

theorem Ahead.not_isNext (ha : s.Ahead y x) (h : s.Sound) (hwaits : Waits Channel.pooled s y)
    (hne : y ≠ x) : ¬ IsNext Channel.pooled .outbound s x := by
  intro hx
  obtain ⟨i, j, hi, hj, hlap⟩ := ha
  have hs := h.serves
  rw [hx.1] at hs
  generalize (s.step (.poll .outbound)).channel.pool = pool at hs
  cases hs with
  | released early _ late order =>
    exact h.outside x (order ▸ List.mem_append_right early List.mem_cons_self) hx.2
  | slots place cursor _ _ scans seated =>
    obtain ⟨j', rfl, hj'⟩ := Option.bind_eq_some_iff.mp seated.symm
    obtain rfl := h.pool.apart hj hj'
    refine (scans.ahead (Pool.nodup_lap _) hlap (offers_of_waits hi hwaits) ?_).2 rfl
    rintro ⟨⟩
    exact hne (Option.some.inj (hi.symm.trans hj))

theorem Ahead.exists_yield (ha : s.Ahead y x) (h : s.Sound) (hne : y ≠ x) {later : List Event}
    (hlast : IsNext Channel.pooled .outbound (s.after later) x)
    (hwaits : ∀ i ≤ later.length, Waits Channel.pooled (s.after (later.take i)) y) :
    ∃ message, (y, message) ∈ trace (yields .outbound) s later := by
  induction later generalizing s with
  | nil => exact absurd hlast (ha.not_isNext h (hwaits 0 (Nat.le_refl 0)) hne)
  | cons e later ih =>
    by_cases hyields : ∃ message, (y, message) ∈ s.yields .outbound e
    · obtain ⟨message, hm⟩ := hyields
      exact ⟨message, List.mem_append_left _ hm⟩
    · have hnext (i : Nat) (hi : i ≤ later.length) :
          Waits Channel.pooled ((s.step e).after (later.take i)) y :=
        hwaits (i + 1) (Nat.succ_le_succ hi)
      have hx : x ∈ (s.step e).channel.pool.connections := by
        obtain ⟨_, j, _, hj, _⟩ := ha
        obtain ⟨j', hj'⟩ := Pool.mem_connections.mp hlast.2
        have hlt := Nat.lt_of_lt_of_le (h.lt_of_slot hj) (h.size_le_step e)
        exact Pool.mem_connections.mpr ⟨j', (h.step e).slot_of_after hlt hj'⟩
      have ha' := ha.step h (hwaits 0 (Nat.zero_le _)) (hnext 0 (Nat.zero_le _)).1 hx
        fun message hm => hyields ⟨message, hm⟩
      obtain ⟨message, hm⟩ := ih ha' (h.step e) hlast hnext
      exact ⟨message, List.mem_append_right _ hm⟩

theorem Sound.takesTurns (h : s.Sound) (later : List Event) :
    TakesTurns Channel.pooled .outbound s later := by
  intro x y hne first second hwaits
  have hslots := h.serves.slots_eq
  have hy : y ∈ s.channel.pool.connections :=
    Pool.connections_congr hslots ▸ (hwaits 0 (Nat.zero_le _)).1
  exact (h.ahead_of_isNext first hy hne).exists_yield (h.step _) hne second hwaits

end

/-- Whatever pooled connections were asked for, cleaned up, torn down and lost: the polls
return what a pooled connection received, be it in a slot or not any more, once and in order;
they return nothing only if there is nothing; and connections in slots take turns. -/
theorem polled_run (c : Config) (tracked : Bool) (before later : List Event) :
    (run c tracked before).Conserves .outbound later ∧
      TakesTurns Channel.pooled .outbound (run c tracked before) later := by
  have h := sound_run c tracked before
  exact ⟨h.conserves .outbound later, h.takesTurns later⟩

end Courier.Stream.Service
