import Courier.Proofs.Stream.Outgoing

/-!
The search for a pooled connection. It finds a live one as long as there is a slot at all;
a pool that is full of live connections to others is torn down for it, and what these have
received is still returned, and first.
-/

namespace Courier.Stream.Service

/-- Every slot holds a live connection, and none is to the peer. -/
def Exhausted (s : Service) (a : SocketAddr) : Prop :=
  (∀ i < s.channel.pool.size, ∃ k, s.channel.pool.slot? i = some k ∧ s.roster.live k = true) ∧
    ∀ k ∈ s.channel.pooled, s.roster.peer? k ≠ some a

/-- A live connection to a peer was found. -/
structure Finds (s : Service) (a : SocketAddr) (x : Reached) : Prop where
  live : x.roster.live x.connection = true
  peer : x.roster.peer? x.connection = some a
  mapped : ∃ i, x.channel.pool.slotOf? a = some i ∧
    x.channel.pool.slot? i = some x.connection
  /-- what the connections received is still there -/
  inbox : ∀ k, x.roster.inbox k = s.roster.inbox k

/-- All pooled connections were closed and gave way to one. -/
structure Clears (s : Service) (a : SocketAddr) (x : Reached) : Prop where
  mapped : ∀ b, x.channel.pool.contains b = true ↔ b = a
  closed : ∀ k ∈ s.channel.pooled, x.roster[k]? = (s.roster[k]?).map Connection.close
  /-- no slot is polled before all that these connections received is returned -/
  before : ∀ k ∈ s.channel.pooled, ∀ later l,
    IsNext Channel.pooled .outbound ((s.withReached x).after later) l →
    (s.withReached x).Returned .outbound later k
  /-- polls that keep up return it -/
  caughtUp : ∀ k ∈ s.channel.pooled, ∀ later,
    (s.withReached x).load .outbound +
        (trace (received .outbound) (s.withReached x) later).length ≤
      later.countP (isPoll .outbound) →
    (s.withReached x).Returned .outbound later k

section

variable {s : Service} {a : SocketAddr} {x : Reached} {k : Nat}

/-- If a connection is found at once, then not all slots were taken by others, and no live
connection is closed. -/
theorem Sound.finds (h : s.Sound) (hx : s.channel.connect s.config s.roster a = some x) :
    s.Finds a x ∧ ¬ s.Exhausted a ∧ x.rebuilt = false ∧
      ∀ k, s.roster.live k = true → x.roster.live k = true := by
  have hc := Channel.connects_connect h.pool s.config a
  rw [hx] at hc
  cases hc with
  | held i k mapped found alive =>
    obtain ⟨l, hl, hpeer⟩ := (h.pool.mapped a i).mp mapped
    cases found.symm.trans hl
    refine ⟨⟨alive, hpeer, ⟨i, mapped, found⟩, fun _ => rfl⟩, fun hfull => ?_, rfl, fun _ => id⟩
    exact hfull.2 k (Pool.mem_connections.mpr ⟨i, found⟩) hpeer
  | placed places i pool closed he _ htaken hinside hdead =>
    have hsize := Roster.size_closeAll s.roster closed
    have hinside' : i < pool.size := he.size ▸ hinside
    have hinbox := ((s.roster.evolves_closeAll closed).trans
      (Roster.evolves_push _ (c := .dial s.config a) rfl)).inbox
    refine ⟨⟨?_, ?_, ⟨i, ?_, ?_⟩, fun k => ?_⟩, fun hfull => ?_, rfl, fun k hk => ?_⟩
    · simp [Roster.live, ← hsize, Connection.isLive, Connection.isDisconnected, Connection.dial]
    · simp [Roster.peer?, ← hsize, Connection.dial]
    · rw [Pool.slotOf?_seat, if_pos rfl]
    · rw [Pool.slot?_seat hinside', if_pos rfl]
    · simpa using hinbox k
    · obtain ⟨k, hk, hlive⟩ := hfull.1 i hinside
      rw [hdead i htaken k hk] at hlive
      cases hlive
    · have hnot : k ∉ closed := fun hin => by
        obtain ⟨j, hj, hjk⟩ := (he.mem k).mp hin
        rw [hdead j hj k hjk] at hk
        cases hk
      rw [Roster.live_push _ _ (hsize ▸ Roster.lt_size_of_live hk), Roster.live_closeAll _ hnot]
      exact hk

theorem Sound.exhausted (h : s.Sound) (hx : s.channel.connect s.config s.roster a = none) :
    s.Exhausted a := by
  have hc := Channel.connects_connect h.pool s.config a
  rw [hx] at hc
  cases hc with
  | full hunmapped hbusy =>
    refine ⟨hbusy, fun k hk hpeer => ?_⟩
    obtain ⟨i, hi⟩ := Pool.mem_connections.mp hk
    have hmapped := (h.pool.mapped a i).mpr ⟨k, hi, hpeer⟩
    rw [hunmapped] at hmapped
    cases hmapped

/-! ## After a teardown -/

/-- No slot is taken, and those that were in one are kept and closed. -/
structure Torn (s t : Service) : Prop where
  slots : ∀ i, t.channel.pool.slot? i = none
  size : t.channel.pool.size = s.channel.pool.size
  released : ∀ k ∈ s.channel.pooled, k ∈ t.channel.pool.released
  closed : ∀ k ∈ s.channel.pooled, t.roster[k]? = (s.roster[k]?).map Connection.close
  inbox : ∀ k, t.roster.inbox k = s.roster.inbox k
  grown : t.roster.size = s.roster.size

theorem torn_step (s : Service) : s.Torn (s.step .teardown) := by
  have he := s.channel.pool.empties_releaseAll (List.range s.channel.pool.size)
  have hclosed {k : Nat} (hk : k ∈ s.channel.pooled) :
      k ∈ (s.channel.pool.releaseAll (List.range s.channel.pool.size)).2 := by
    obtain ⟨i, hi⟩ := Pool.mem_connections.mp hk
    exact (he.mem k).mpr ⟨i, List.mem_range.mpr (Pool.lt_size hi), hi⟩
  constructor
  case slots =>
    intro i
    show (s.channel.pool.releaseAll _).1.slot? i = none
    rw [he.slots]
    split
    · rfl
    · next hout =>
      by_contra hsome
      obtain ⟨k, hk⟩ := Option.ne_none_iff_exists'.mp hsome
      exact hout (List.mem_range.mpr (Pool.lt_size hk))
  case size => exact he.size
  case released =>
    intro k hk
    show k ∈ (s.channel.pool.releaseAll _).1.released
    rw [he.released]
    exact List.mem_append_right _ (hclosed hk)
  case closed =>
    intro k hk
    exact (Roster.getElem?_closeAll _ _ k).trans (if_pos (hclosed hk))
  case inbox =>
    intro k
    exact ((s.roster.evolves_closeAll _).inbox k).trans (List.append_nil _)
  case grown => exact Roster.size_closeAll _ _

/-- In a pool without connections the first slot is taken, if there is one. -/
theorem Torn.exists_connect {t : Service} (ht : s.Torn t) (h : t.Sound)
    (hsize : 0 < s.channel.pool.size) (a : SocketAddr) :
    ∃ x, t.channel.connect t.config t.roster a = some x := by
  have hc := Channel.connects_connect h.pool t.config a
  cases hx : t.channel.connect t.config t.roster a with
  | some x => exact ⟨x, rfl⟩
  | none =>
    rw [hx] at hc
    cases hc with
    | full _ hbusy =>
      obtain ⟨k, hk, _⟩ := hbusy 0 (ht.size.symm ▸ hsize)
      cases (ht.slots 0).symm.trans hk

theorem Torn.clears {t : Service} (ht : s.Torn t) (hs : s.Sound) (h : t.Sound)
    (hx : t.channel.connect t.config t.roster a = some x) (hafter : (s.withReached x).Sound) :
    s.Clears a x := by
  have hc := Channel.connects_connect h.pool t.config a
  rw [hx] at hc
  cases hc with
  | held i k _ hk => cases (ht.slots i).symm.trans hk
  | placed places i pool closed he _ _ hinside =>
    have hslots (b : SocketAddr) : t.channel.pool.slotOf? b = none := by
      by_contra hsome
      obtain ⟨j, hj⟩ := Option.ne_none_iff_exists'.mp hsome
      obtain ⟨k, hk, _⟩ := (h.pool.mapped b j).mp hj
      cases (ht.slots j).symm.trans hk
    have hclosed : closed = [] := List.eq_nil_iff_forall_not_mem.mpr fun k hk => by
      obtain ⟨j, _, hj⟩ := (he.mem k).mp hk
      cases (ht.slots j).symm.trans hj
    subst hclosed
    have hreleased {k : Nat} (hk : k ∈ s.channel.pooled) :
        k ∈ (pool.seat i a t.roster.size).released := by
      show k ∈ pool.released
      rw [he.released, List.append_nil]
      exact ht.released k hk
    constructor
    case mapped =>
      intro b
      show ((pool.seat i a t.roster.size).slotOf? b).isSome = true ↔ b = a
      rw [Pool.slotOf?_seat, he.slotOf? h.pool.distinct, hslots]
      by_cases hb : b = a <;> simp [hb]
    case closed =>
      intro k hk
      have hlt : k < t.roster.size := ht.grown.symm ▸ hs.known .outbound k
        (Pool.mem_held.mpr (Or.inr (Pool.mem_connections.mp hk)))
      show (t.roster.push _)[k]? = _
      rw [Array.getElem?_push, if_neg (Nat.ne_of_lt hlt)]
      exact ht.closed k hk
    case before => exact fun k hk later l hnext => hafter.returned_of_released (hreleased hk) hnext
    case caughtUp =>
      exact fun k hk later henough => hafter.returned_of_polls
        (Pool.mem_held.mpr (Or.inl (hreleased hk))) henough

/-- The search for a connection finds one, and rebuilds the pool exactly if it is full of live
connections to others. -/
theorem Sound.reaches (h : s.Sound) (hsize : 0 < s.channel.pool.size) (a : SocketAddr) :
    ∃ x, s.channel.reach s.config s.roster a = some x ∧ s.Finds a x ∧
      (x.rebuilt = true ↔ s.Exhausted a) ∧
      (x.rebuilt = false → ∀ k, s.roster.live k = true → x.roster.live k = true) ∧
      (x.rebuilt = true → s.Clears a x) := by
  cases hx : s.channel.connect s.config s.roster a with
  | some x =>
    obtain ⟨hfinds, hnot, hrebuilt, hspared⟩ := h.finds hx
    refine ⟨x, by rw [Channel.reach, hx], hfinds, ?_, fun _ => hspared, ?_⟩
    · rw [hrebuilt]
      exact iff_of_false Bool.false_ne_true hnot
    · rw [hrebuilt]
      exact fun hfalse => absurd hfalse Bool.false_ne_true
  | none =>
    have ht := s.torn_step
    have h' := h.step .teardown
    obtain ⟨y, hy⟩ := ht.exists_connect h' hsize a
    have hreach : s.channel.reach s.config s.roster a =
        some { y with closed := (s.channel.teardown s.roster).1 ++ y.closed, rebuilt := true } := by
      rw [Channel.reach, hx]
      exact congrArg (Option.map _) hy
    have hafter := h.after (s.searches a)
    rw [s.after_searches hreach] at hafter
    obtain ⟨hfinds, _⟩ := h'.finds hy
    have hclears := ht.clears h h' hy hafter
    refine ⟨_, hreach, ?_, iff_of_true rfl (h.exhausted hx), nofun, fun _ => ?_⟩
    · exact ⟨hfinds.live, hfinds.peer, hfinds.mapped, fun k => (hfinds.inbox k).trans (ht.inbox k)⟩
    · exact ⟨hclears.mapped, hclears.closed, hclears.before, hclears.caughtUp⟩

end

end Courier.Stream.Service
