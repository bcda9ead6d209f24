import Courier.Proofs.Stream.Exact
import Courier.Proofs.Stream.Pool
import Courier.Stream.Channel

/-!
What happens to a pool of connections when a message is to be handed to one of them: what
the search for a connection to the peer can come to, and what comes of a message that no
connection takes.
-/

namespace Courier.Stream

/-- A message that no live connection takes. -/
def Refused (c : Config) (data : Bytes) : Prop :=
  ∀ k : Connection, k.maxFrameSize = c.maxFrameSize → k.isLive = true → (k.send data).1 = false

theorem Connection.send_of_not_accepts {k : Connection} {data : Bytes}
    (h : k.accepts data = false) : k.send data = (false, k) := by
  rw [Connection.send, h, if_pos (by simp)]

theorem refused_iff {c : Config} {data : Bytes} :
    Refused c data ↔
      data = [] ∨ Frame.isKeepalive data = true ∨ c.maxFrameSize < data.length := by
  constructor
  · intro h
    by_contra hnot
    rw [not_or, not_or] at hnot
    obtain ⟨hne, hmessage, hfits⟩ := hnot
    -- a connection that was just accepted takes such a message
    have hfalse := h (.accept c ⟨.v4 0 0 0 0, 0, 0⟩) rfl rfl
    have htakes : (Connection.accept c ⟨.v4 0 0 0 0, 0, 0⟩).accepts data = true :=
      Connection.accepts_iff.mpr ⟨hne, Bool.eq_false_iff.mpr hmessage, Nat.le_of_not_lt hfits⟩
    rw [Connection.send, htakes] at hfalse
    cases hfalse
  · intro h k hsize _
    have hnot : k.accepts data = false := by
      rw [Bool.eq_false_iff, ne_eq, Connection.accepts_iff, hsize]
      rintro ⟨hne, hmessage, hfits⟩
      rcases h with hempty | hkeepalive | hlong
      · exact hne hempty
      · rw [hmessage] at hkeepalive
        cases hkeepalive
      · omega
    rw [Connection.send_of_not_accepts hnot]

theorem Roster.send_reserved (r : Roster) (n : Nat) {data : Bytes}
    (h : Frame.isKeepalive data = true) : r.send n data = (false, r) := by
  unfold Roster.send
  cases hk : r[n]? with
  | none => rfl
  | some k =>
    have hnot : k.accepts data = false := by
      rw [Bool.eq_false_iff, ne_eq, Connection.accepts_iff, h]
      simp
    obtain ⟨hn, rfl⟩ := Array.getElem?_eq_some_iff.mp hk
    dsimp only
    rw [Connection.send_of_not_accepts hnot]
    rw [Array.setIfInBounds_def, dif_pos hn, Array.set_getElem_self]

theorem Roster.size_closeAll (r : Roster) (ks : List Nat) : (r.closeAll ks).size = r.size := by
  unfold Roster.closeAll
  induction ks generalizing r with
  | nil => rfl
  | cons k ks ih =>
    rw [List.foldl_cons, ih]
    exact Array.size_modify

/-! ## The pool -/

namespace Pool

variable {κ : Type} {p : Pool κ} {live : κ → Bool} {a : SocketAddr} {fresh : κ}

/-- There is a live connection to a peer. -/
def Holds (p : Pool κ) (live : κ → Bool) (a : SocketAddr) : Prop :=
  ∃ i k, p.slotOf? a = some i ∧ p.slot? i = some k ∧ live k = true

theorem assign_found (p : Pool κ) (live : κ → Bool) (a : SocketAddr) (fresh : κ) :
    (p.assign live a fresh).found = none ∨ (p.assign live a fresh).found = some (fresh, true) := by
  unfold assign
  split
  · exact Or.inl rfl
  · exact Or.inr rfl

theorem attempt_of_holds (h : p.Holds live a) (fresh : κ) :
    ∃ k, p.attempt live a fresh = ⟨some (k, false), [], p⟩ := by
  obtain ⟨i, k, hi, hk, hlive⟩ := h
  refine ⟨k, ?_⟩
  unfold attempt
  rw [hi]
  dsimp only
  rw [hk, Option.filter_some, if_pos hlive]

theorem attempt_found (h : ¬ p.Holds live a) (fresh : κ) :
    (p.attempt live a fresh).found = none ∨
      (p.attempt live a fresh).found = some (fresh, true) := by
  unfold attempt
  cases hi : p.slotOf? a with
  | none => exact p.assign_found live a fresh
  | some i =>
    dsimp only
    cases hk : (p.slot? i).filter live with
    | none => exact (p.release i).1.assign_found live a fresh
    | some k =>
      obtain ⟨hk, hlive⟩ := Option.filter_eq_some_iff.mp hk
      exact absurd ⟨i, k, hi, hk, hlive⟩ h

theorem not_holds_teardown (p : Pool κ) (live : κ → Bool) (a : SocketAddr) :
    ¬ p.teardown.1.Holds live a := by
  rintro ⟨i, k, _, hk, _⟩
  have he := p.empties_releaseAll (List.range p.size)
  have hk' : (p.releaseAll (List.range p.size)).1.slot? i = some k := hk
  have hi : i < p.size := he.size ▸ lt_size hk'
  rw [he.slots, if_pos (List.mem_range.mpr hi)] at hk'
  cases hk'

end Pool

/-! ## The search for a connection -/

namespace Channel

variable {ch : Channel} {c : Config} {r : Roster} {peer : SocketAddr}

theorem connect_of_holds (h : ch.pool.Holds r.live peer) : ∃ k, ch.connect c r peer =
    some { connection := k, opened := false, closed := [], roster := r, channel := ch } := by
  obtain ⟨k, hk⟩ := Pool.attempt_of_holds h r.size
  exact ⟨k, by simp [connect, Pool.acquire, hk, Roster.closeAll]⟩

theorem opened_of_connect (h : ¬ ch.pool.Holds r.live peer) {x : Reached}
    (hx : ch.connect c r peer = some x) :
    x.opened = true ∧ x.rebuilt = false ∧ x.roster.size = r.size + 1 := by
  rcases Pool.attempt_found h r.size with hnone | hsome
  · simp [connect, Pool.acquire, hnone] at hx
  · simp only [connect, Pool.acquire, hsome, Option.map_some, Option.some.injEq] at hx
    subst hx
    exact ⟨rfl, rfl, by simp [Roster.size_closeAll]⟩

/-- Everything that the search for a connection to a peer can come to. -/
inductive Reaches (ch : Channel) (c : Config) (r : Roster) (peer : SocketAddr) :
    Option Reached → Prop
  | held (k : Nat) (holds : ch.pool.Holds r.live peer) : Reaches ch c r peer
      (some { connection := k, opened := false, closed := [], roster := r, channel := ch })
  | opened (x : Reached) (holds : ¬ ch.pool.Holds r.live peer)
      (room : ch.connect c r peer = some x) (opened : x.opened = true)
      (rebuilt : x.rebuilt = false) (size : x.roster.size = r.size + 1) :
      Reaches ch c r peer (some x)
  /-- the pool was full, and all that it held was closed -/
  | rebuilt (x : Reached) (holds : ¬ ch.pool.Holds r.live peer)
      (full : ch.connect c r peer = none) (opened : x.opened = true) (rebuilt : x.rebuilt = true)
      (size : x.roster.size = r.size + 1) (closed : ∀ k ∈ ch.pool.connections, k ∈ x.closed) :
      Reaches ch c r peer (some x)
  /-- there is no slot at all -/
  | lost (holds : ¬ ch.pool.Holds r.live peer) (full : ch.connect c r peer = none) :
      Reaches ch c r peer none

theorem reaches_reach (ch : Channel) (c : Config) (r : Roster) (peer : SocketAddr) :
    Reaches ch c r peer (ch.reach c r peer) := by
  unfold reach
  by_cases h : ch.pool.Holds r.live peer
  · obtain ⟨k, hk⟩ := connect_of_holds (c := c) h
    rw [hk]
    exact .held k h
  · cases hx : ch.connect c r peer with
    | some x =>
      obtain ⟨hopened, hrebuilt, hsize⟩ := opened_of_connect h hx
      exact .opened x h hx hopened hrebuilt hsize
    | none =>
      have htorn : ¬ (ch.teardown r).2.2.pool.Holds (ch.teardown r).2.1.live peer :=
        ch.pool.not_holds_teardown _ peer
      have hsize : (ch.teardown r).2.1.size = r.size := Roster.size_closeAll r _
      have hclosed : ∀ k ∈ ch.pool.connections, k ∈ (ch.teardown r).1 := fun k hk => by
        obtain ⟨i, hi⟩ := Pool.mem_connections.mp hk
        exact ((ch.pool.empties_releaseAll (List.range ch.pool.size)).mem k).mpr
          ⟨i, List.mem_range.mpr (Pool.lt_size hi), hi⟩
      dsimp only
      generalize ch.teardown r = torn at htorn hsize hclosed
      obtain ⟨closed, r', ch'⟩ := torn
      dsimp only at htorn hsize hclosed ⊢
      cases hx' : ch'.connect c r' peer with
      | none => exact .lost h hx
      | some x =>
        obtain ⟨hopened, _, hsize'⟩ := opened_of_connect htorn hx'
        exact .rebuilt _ h hx hopened rfl (hsize'.trans (by rw [hsize]))
          fun k hk => List.mem_append_left _ (hclosed k hk)

/-- No connection takes a keepalive payload, but one to the peer is looked for all the
same. -/
theorem deliver_reserved (ch : Channel) (c : Config) (r : Roster) (peer : SocketAddr)
    {data : Bytes} (h : Frame.isKeepalive data = true) : ch.deliver c r peer data =
      match ch.reach c r peer with
      | none => { taken := false, rebuilt := true, roster := r, channel := ch }
      | some x =>
        { taken := false
          closed := x.closed
          connection := some x.connection
          opened := x.opened
          rebuilt := x.rebuilt
          roster := x.roster
          channel := x.channel } := by
  unfold deliver deliverPooled
  simp only [Roster.send_reserved _ _ h]
  cases ch.inboundConnection r peer <;> rfl

end Channel

end Courier.Stream
