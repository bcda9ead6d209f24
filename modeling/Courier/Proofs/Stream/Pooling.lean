import Courier.Proofs.Stream.Pool

/-!
The whole life of a pool: connections are asked for, cleaned up, torn down and polled, and
any of them may get disconnected at any moment in between. Connections are numbered in the
order in which they were opened. At any moment the peers and the occupied slots belong
together one to one, and a connection that left its slot was closed exactly once.
-/

namespace Courier.Stream

structure Pooling where
  pool : Pool Nat
  /-- the peers that connections were opened for, the first connection first -/
  opened : List SocketAddr := []
  dead : List Nat := []
  /-- the connections that the pool closed, in the order in which it did -/
  closed : List Nat := []

namespace Pooling

inductive Event where
  | acquire (peer : SocketAddr)
  | cleanup
  | teardown
  | poll (waiting : Nat → Bool)
  | disconnect (k : Nat)

def init (size : Nat) : Pooling where
  pool := .empty size

def isLive (s : Pooling) (k : Nat) : Bool := k ∉ s.dead

/-- What the wish for a connection to a peer comes to. -/
def wish (s : Pooling) (peer : SocketAddr) : Pool.Attempt Nat :=
  s.pool.attempt s.isLive peer s.opened.length

def step (s : Pooling) : Event → Pooling
  | .acquire peer =>
    let t := s.wish peer
    { s with
      pool := t.pool
      opened := if t.found.any (·.2) then s.opened ++ [peer] else s.opened
      closed := s.closed ++ t.closed }
  | .cleanup =>
    let (pool, closed) := s.pool.cleanup s.isLive
    { s with pool, closed := s.closed ++ closed }
  | .teardown =>
    let (pool, closed) := s.pool.teardown
    { s with pool, closed := s.closed ++ closed }
  | .poll waiting => { s with pool := (s.pool.poll waiting).pool }
  | .disconnect k => if k < s.opened.length then { s with dead := k :: s.dead } else s

def run (size : Nat) (events : List Event) : Pooling := events.foldl step (init size)

theorem run_append (size : Nat) (events : List Event) (e : Event) :
    run size (events ++ [e]) = (run size events).step e := by
  simp [run]

/-! ## Reading the state -/

/-- Peers and occupied slots belong together, and what left its slot was closed once. -/
structure Kept (s : Pooling) : Prop where
  distinct : (s.pool.slotByPeer.map (·.1)).Nodup
  mapped : ∀ a i, s.pool.slotOf? a = some i ↔
    ∃ k, s.pool.slot? i = some k ∧ s.opened[k]? = some a
  occupied : ∀ i k, s.pool.slot? i = some k → ∃! a, s.pool.slotOf? a = some i
  once : ∀ k < s.opened.length,
    s.closed.count k = if k ∈ s.pool.connections then 0 else 1
  released : s.pool.released <:+ s.closed

/-- What a caller gets who asks for a connection to a peer. -/
structure Answers (s : Pooling) (a : SocketAddr) (asked : Option (Pool.Acquired Nat)) : Prop where
  exhausted : asked = none ↔
    (∀ i < s.pool.size, ∃ k, s.pool.slot? i = some k ∧ s.isLive k = true) ∧
      ∀ k ∈ s.pool.connections, s.opened[k]? ≠ some a
  refused : asked = none → s.step (.acquire a) = s
  reused : ∀ k, (∃ t, asked = some t ∧ t.connection = k ∧ t.opened = false) ↔
    k ∈ s.pool.connections ∧ s.isLive k = true ∧ s.opened[k]? = some a
  undisturbed : ∀ t, asked = some t → t.opened = false → s.step (.acquire a) = s
  fresh : ∀ t, asked = some t → t.opened = true →
    t.connection = s.opened.length ∧ (s.step (.acquire a)).opened = s.opened ++ [a] ∧
      t.connection ∈ (s.step (.acquire a)).pool.connections ∧
      (s.step (.acquire a)).isLive t.connection = true ∧ ∀ k ∈ t.closed, s.isLive k = false

/-- What an event does to the connections in the slots and to those that left them. -/
structure Moves (s : Pooling) (e : Event) (left drained : List Nat) : Prop where
  closed : (s.step e).closed = s.closed ++ left
  nodup : left.Nodup
  mem : ∀ k, k ∈ left ↔ k ∈ s.pool.connections ∧ k ∉ (s.step e).pool.connections
  released : s.pool.released ++ left = drained ++ (s.step e).pool.released
  drained : ∀ k ∈ drained, ∃ waiting, e = .poll waiting ∧ waiting k = false

/-! ## The steps -/

/-- Everything that an event can do. -/
inductive Steps (s : Pooling) : Event → Pooling → Prop
  | idle (e : Event) : Steps s e s
  | disconnected (k : Nat) (opened : k < s.opened.length) :
      Steps s (.disconnect k) { s with dead := k :: s.dead }
  | emptied (e : Event) (places : List Nat) (pool : Pool Nat) (left : List Nat)
      (empties : Pool.Empties places s.pool pool left) :
      Steps s e { s with pool, closed := s.closed ++ left }
  | seated (a : SocketAddr) (places : List Nat) (i : Nat) (pool : Pool Nat) (left : List Nat)
      (empties : Pool.Empties places s.pool pool left) (taken : i ∈ places)
      (inside : i < s.pool.size) (stale : ∀ j, s.pool.slotOf? a = some j → j ∈ places) :
      Steps s (.acquire a)
        { s with
          pool := pool.seat i a s.opened.length
          opened := s.opened ++ [a]
          closed := s.closed ++ left }
  | polled (waiting : Nat → Bool) (pool : Pool Nat) (drained : List Nat)
      (polls : Pool.Polls waiting s.pool pool drained) :
      Steps s (.poll waiting) { s with pool }

theorem steps_step {s : Pooling} (h : s.pool.Sound (s.opened[·]?)) (e : Event) :
    Steps s e (s.step e) := by
  cases e with
  | acquire a =>
    have ht : s.pool.Attempts s.isLive a s.opened.length (s.wish a) := h.attempts _ _ _
    unfold step
    dsimp only
    generalize s.wish a = t at ht
    cases ht with
    | held => simpa using Steps.idle _
    | full => simpa using Steps.idle _
    | placed places i pool left empties taken inside _ stale =>
      exact .seated a places i pool left empties taken inside stale
  | cleanup => exact .emptied _ _ _ _ (s.pool.empties_releaseAll _)
  | teardown =>
    have he := s.pool.empties_releaseAll (List.range s.pool.size)
    exact .emptied _ (List.range s.pool.size) _ _
      ⟨he.slots, he.peers, he.size, he.released, he.mem, he.nodup⟩
  | poll waiting => exact .polled waiting _ _ (s.pool.polls_poll waiting)
  | disconnect k =>
    by_cases hk : k < s.opened.length
    · rw [step, if_pos hk]
      exact .disconnected k hk
    · rw [step, if_neg hk]
      exact .idle _

/-! ## The invariant -/

structure Sound (s : Pooling) : Prop where
  pool : s.pool.Sound (s.opened[·]?)
  dead : ∀ k ∈ s.dead, k < s.opened.length
  once : ∀ k < s.opened.length, s.closed.count k = if k ∈ s.pool.connections then 0 else 1
  closed : ∀ k ∈ s.closed, k < s.opened.length
  released : s.pool.released <:+ s.closed

theorem sound_init (size : Nat) : (init size).Sound where
  pool := by
    refine ⟨List.nodup_nil, fun a i => ?_, fun i k hk => ?_⟩
    · simp [init, Pool.empty, Pool.slotOf?]
    · have hnone : (init size).pool.slot? i = none := by
        simp only [init, Pool.empty, Pool.slot?, Array.getElem?_replicate]
        split <;> rfl
      rw [hnone] at hk
      cases hk
  dead := by simp [init]
  once := by simp [init]
  closed := by simp [init]
  released := List.suffix_refl _

section

variable {s s' : Pooling} {places : List Nat} {pool : Pool Nat} {left : List Nat}

theorem Sound.lt_of_slot (h : s.Sound) {i k : Nat} (hk : s.pool.slot? i = some k) :
    k < s.opened.length := by
  obtain ⟨a, ha⟩ := h.pool.known i k hk
  exact (List.getElem?_eq_some_iff.mp ha).1

theorem Sound.lt_of_mem (h : s.Sound) {k : Nat} (hk : k ∈ s.pool.connections) :
    k < s.opened.length := by
  obtain ⟨i, hi⟩ := Pool.mem_connections.mp hk
  exact h.lt_of_slot hi

theorem Sound.mem_connections (h : s.Sound) (he : Pool.Empties places s.pool pool left) (k : Nat) :
    k ∈ pool.connections ↔ k ∈ s.pool.connections ∧ k ∉ left :=
  he.mem_connections (fun _ _ _ => h.pool.apart) k

theorem Sound.nodup_left (h : s.Sound) (he : Pool.Empties places s.pool pool left) : left.Nodup :=
  he.nodup fun _ _ _ => h.pool.apart

/-- A connection is closed when it leaves its slot, and not again. -/
theorem Sound.count_emptied (h : s.Sound) (he : Pool.Empties places s.pool pool left) {k : Nat}
    (hk : k < s.opened.length) :
    (s.closed ++ left).count k = if k ∈ pool.connections then 0 else 1 := by
  rw [List.count_append, h.once k hk, (h.nodup_left he).count]
  have hmem := h.mem_connections he k
  have hleft := fun hk : k ∈ left => he.mem_of_closed hk
  by_cases hin : k ∈ s.pool.connections <;> by_cases hout : k ∈ left <;> simp_all

theorem Sound.emptied (h : s.Sound) (he : Pool.Empties places s.pool pool left) :
    Sound { s with pool, closed := s.closed ++ left } where
  pool := h.pool.empties he
  dead := h.dead
  once := fun _ => h.count_emptied he
  closed := fun k hk => by
    rcases List.mem_append.mp hk with hk | hk
    · exact h.closed k hk
    · exact h.lt_of_mem (he.mem_of_closed hk)
  released := by
    show pool.released <:+ _
    rw [he.released]
    exact List.suffix_append_self_iff.mpr h.released

theorem Sound.disconnected (h : s.Sound) {k : Nat} (hk : k < s.opened.length) :
    Sound { s with dead := k :: s.dead } where
  pool := h.pool
  dead := fun l hl => by
    rcases List.mem_cons.mp hl with rfl | hl
    · exact hk
    · exact h.dead l hl
  once := h.once
  closed := h.closed
  released := h.released

theorem Sound.polled (h : s.Sound) {waiting : Nat → Bool} {drained : List Nat}
    (hp : Pool.Polls waiting s.pool pool drained) : Sound { s with pool } where
  pool := h.pool.congr hp.slots hp.peers
  dead := h.dead
  once := by
    rw [Pool.connections_congr hp.slots]
    exact h.once
  closed := h.closed
  released := by
    have hsuffix : pool.released <:+ s.pool.released := ⟨drained, hp.released.symm⟩
    exact hsuffix.trans h.released

theorem Sound.seated (h : s.Sound) (he : Pool.Empties places s.pool pool left) {a : SocketAddr}
    {i : Nat} (htaken : i ∈ places) (hin : i < s.pool.size)
    (hstale : ∀ j, s.pool.slotOf? a = some j → j ∈ places) :
    Sound
      { s with
        pool := pool.seat i a s.opened.length
        opened := s.opened ++ [a]
        closed := s.closed ++ left } := by
  have h' := h.emptied he
  have hin' : i < pool.size := he.size ▸ hin
  have hempty : pool.slot? i = none := by rw [he.slots, if_pos htaken]
  have hunmapped : pool.slotOf? a = none := by
    rw [he.slotOf? h.pool.distinct, Option.filter_eq_none_iff]
    simpa using hstale
  have hsame : ∀ j l, pool.slot? j = some l → (s.opened ++ [a])[l]? = s.opened[l]? :=
    fun j l hl => List.getElem?_append_left (h'.lt_of_slot hl)
  constructor
  case pool => exact h'.pool.seat hin' hempty hunmapped (by simp) hsame
  case dead =>
    intro k hk
    rw [List.length_append]
    exact Nat.lt_add_right 1 (h.dead k hk)
  case once =>
    intro k hk
    simp only [Pool.mem_connections_seat hin' hempty]
    rcases Nat.lt_or_eq_of_le (Nat.le_of_lt_succ (List.length_append ▸ hk)) with hold | rfl
    · simpa [Nat.ne_of_lt hold] using h.count_emptied he hold
    · -- the new connection was not closed yet
      have hnot : s.opened.length ∉ s.closed ++ left := fun hm => Nat.lt_irrefl _ (h'.closed _ hm)
      rw [List.count_eq_zero.mpr hnot, if_pos (Or.inl rfl)]
  case closed =>
    intro k hk
    rw [List.length_append]
    exact Nat.lt_add_right 1 (h'.closed k hk)
  case released => exact h'.released

theorem Sound.step (h : s.Sound) (e : Event) : (s.step e).Sound := by
  have hs := steps_step h.pool e
  generalize s.step e = s' at hs
  cases hs with
  | idle => exact h
  | disconnected k hk => exact h.disconnected hk
  | emptied _ places pool left he => exact h.emptied he
  | seated a places i pool left he htaken hin hstale => exact h.seated he htaken hin hstale
  | polled waiting pool drained hp => exact h.polled hp

end

theorem sound_run (size : Nat) (events : List Event) : (run size events).Sound := by
  induction events using List.reverseRecOn with
  | nil => exact sound_init size
  | append_singleton events e ih =>
    rw [run_append]
    exact ih.step e

/-! ## What callers see -/

section

variable {s : Pooling}

theorem Sound.kept (h : s.Sound) : s.Kept where
  distinct := h.pool.distinct
  mapped := h.pool.mapped
  occupied := fun i k hk => by
    obtain ⟨a, ha⟩ := h.pool.known i k hk
    refine ⟨a, (h.pool.mapped a i).mpr ⟨k, hk, ha⟩, fun b hb => ?_⟩
    obtain ⟨l, hl, hbl⟩ := (h.pool.mapped b i).mp hb
    cases hk.symm.trans hl
    exact Option.some.inj (hbl.symm.trans ha)
  once := h.once
  released := h.released

theorem Sound.fresh_notMem (h : s.Sound) : s.opened.length ∉ s.pool.connections :=
  fun hm => Nat.lt_irrefl _ (h.lt_of_mem hm)

theorem Sound.moves (h : s.Sound) (e : Event) : ∃ left drained, s.Moves e left drained := by
  have hs := steps_step h.pool e
  generalize hs' : s.step e = s' at hs
  cases hs with
  | idle => exact ⟨[], [], by simp [hs'], List.nodup_nil, by simp [hs'], by simp [hs'], by simp⟩
  | disconnected k hk =>
    exact ⟨[], [], by simp [hs'], List.nodup_nil, by simp [hs'], by simp [hs'], by simp⟩
  | emptied _ places pool left he =>
    refine ⟨left, [], by rw [hs'], h.nodup_left he, fun k => ?_,
      by rw [hs']; exact he.released.symm, by simp⟩
    rw [hs', h.mem_connections he]
    have := fun hk : k ∈ left => he.mem_of_closed hk
    tauto
  | seated a places i pool left he htaken hin hstale =>
    have hin' : i < pool.size := he.size ▸ hin
    have hempty : pool.slot? i = none := by rw [he.slots, if_pos htaken]
    refine ⟨left, [], by rw [hs'], h.nodup_left he, fun k => ?_,
      by rw [hs']; exact he.released.symm, by simp⟩
    rw [hs', Pool.mem_connections_seat hin' hempty, h.mem_connections he]
    have := fun hk : k ∈ left => he.mem_of_closed hk
    have hne : k ∈ s.pool.connections → k ≠ s.opened.length := fun hk he => h.fresh_notMem (he ▸ hk)
    tauto
  | polled waiting pool drained hp =>
    refine ⟨[], drained, by simp [hs'], List.nodup_nil, ?_, ?_,
      fun k hk => ⟨_, rfl, hp.drained k hk⟩⟩
    · simp [hs', Pool.connections_congr hp.slots]
    · rw [hs', List.append_nil]
      exact hp.released

/-- The connections for a peer are the one in its slot. -/
theorem Sound.for_iff (h : s.Sound) {a : SocketAddr} {k : Nat} :
    k ∈ s.pool.connections ∧ s.opened[k]? = some a ↔
      ∃ i, s.pool.slotOf? a = some i ∧ s.pool.slot? i = some k := by
  rw [Pool.mem_connections]
  constructor
  · rintro ⟨⟨i, hi⟩, ha⟩
    exact ⟨i, (h.pool.mapped a i).mpr ⟨k, hi, ha⟩, hi⟩
  · rintro ⟨i, hm, hi⟩
    obtain ⟨l, hl, ha⟩ := (h.pool.mapped a i).mp hm
    cases hi.symm.trans hl
    exact ⟨⟨i, hi⟩, ha⟩

theorem acquire_eq (s : Pooling) (a : SocketAddr) :
    s.pool.acquire s.isLive a s.opened.length =
      (s.wish a).found.map fun (k, opened) => ⟨k, opened, (s.wish a).closed, (s.wish a).pool⟩ := rfl

theorem Sound.answers (h : s.Sound) (a : SocketAddr) :
    s.Answers a (s.pool.acquire s.isLive a s.opened.length) := by
  have ht : s.pool.Attempts s.isLive a s.opened.length (s.wish a) := h.pool.attempts _ _ _
  rw [acquire_eq]
  generalize hw : s.wish a = t at ht
  cases ht with
  | held i k hm hk hlive =>
    obtain ⟨hmem, ha⟩ := h.for_iff.mpr ⟨i, hm, hk⟩
    have hsame : s.step (.acquire a) = s := by simp [Pooling.step, hw]
    refine ⟨?_, fun _ => hsame, fun l => ?_, fun _ _ _ => hsame, by simp⟩
    · simp only [Option.map_some, reduceCtorEq, false_iff, not_and]
      exact fun _ hnone => hnone k hmem ha
    · simp only [Option.map_some, Option.some.injEq, exists_eq_left', and_true]
      constructor
      · rintro rfl
        exact ⟨hmem, hlive, ha⟩
      · rintro ⟨hl, _, hal⟩
        obtain ⟨j, hj, hjl⟩ := h.for_iff.mp ⟨hl, hal⟩
        cases hm.symm.trans hj
        exact Option.some.inj (hk.symm.trans hjl)
  | full hm hbusy =>
    have hnone : ∀ k ∈ s.pool.connections, s.opened[k]? ≠ some a := fun k hk ha => by
      obtain ⟨i, hi, _⟩ := h.for_iff.mp ⟨hk, ha⟩
      cases hm.symm.trans hi
    have hsame : s.step (.acquire a) = s := by simp [Pooling.step, hw]
    refine ⟨by simpa using ⟨hbusy, hnone⟩, fun _ => hsame, fun l => ?_, fun _ _ _ => hsame, by simp⟩
    simp only [Option.map_none, reduceCtorEq, false_and, exists_false, false_iff]
    exact fun ⟨hl, _, hal⟩ => hnone l hl hal
  | placed places i pool left he htaken hin hdead hstale =>
    have hin' : i < pool.size := he.size ▸ hin
    have hempty : pool.slot? i = none := by rw [he.slots, if_pos htaken]
    refine ⟨?_, by simp, fun l => ?_, by simp, ?_⟩
    · simp only [Option.map_some, reduceCtorEq, false_iff, not_and]
      intro hbusy
      obtain ⟨k, hk, hlive⟩ := hbusy i hin
      rw [hdead i htaken k hk] at hlive
      cases hlive
    · simp only [Option.map_some, Option.some.injEq, exists_eq_left', Bool.true_eq_false, and_false,
        false_iff]
      rintro ⟨hl, hlive, hal⟩
      obtain ⟨j, hj, hjl⟩ := h.for_iff.mp ⟨hl, hal⟩
      rw [hdead j (hstale j hj) l hjl] at hlive
      cases hlive
    · rintro _ ⟨⟩ _
      refine ⟨rfl, by simp [Pooling.step, hw], ?_, ?_, fun k hk => ?_⟩
      · simpa [Pooling.step, hw] using
          (Pool.mem_connections_seat hin' hempty a _ _).mpr (Or.inl rfl)
      · have hfresh : s.opened.length ∉ s.dead := fun hd => Nat.lt_irrefl _ (h.dead _ hd)
        exact decide_eq_true hfresh
      · obtain ⟨j, hj, hjk⟩ := (he.mem k).mp hk
        exact hdead j hj k hjk

end

/-- Whatever was asked of a pool of any size, and whichever connections got lost: peers and
occupied slots belong together one to one, a caller gets the live connection to a peer, else
one new one, or is refused exactly if all slots hold live connections to others, and a
connection that leaves its slot is closed once and kept for what it still holds. -/
theorem pooling_run (size : Nat) (events : List Event) :
    (run size events).Kept ∧
      (∀ a, (run size events).Answers a
        ((run size events).pool.acquire (run size events).isLive a
          (run size events).opened.length)) ∧
      ∀ e, ∃ left drained, (run size events).Moves e left drained := by
  have h := sound_run size events
  exact ⟨h.kept, h.answers, h.moves⟩

end Pooling

end Courier.Stream
