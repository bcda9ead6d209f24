import Courier.Proofs.Stream.Delivery
import Courier.Proofs.Stream.Roster

/-!
Which connection a message to a peer is handed to. Main statement: it is queued on exactly one
connection and reported as taken, or on none and reported as not taken. The earliest live
connection that the peer opened comes first; after it comes the one that the pool keeps for the
peer.
-/

namespace Courier.Stream

/-! ## Outboxes -/

namespace Roster

/-- The frames that a connection has to write, the latest first. -/
def outbox (r : Roster) (k : Nat) : List Bytes := (r[k]?).elim [] (·.outbox)

/-- A message is queued on one connection, and no other queue changes. -/
structure Queues (r r' : Roster) (k : Nat) (data : Bytes) : Prop where
  queued : r'.outbox k = Frame.encode data :: r.outbox k
  others : ∀ j ≠ k, r'.outbox j = r.outbox j

section

variable {r r' : Roster} {k : Nat} {data : Bytes}

theorem outbox_closeAll (r : Roster) (ks : List Nat) : (r.closeAll ks).outbox = r.outbox := by
  funext k
  rw [outbox, outbox, getElem?_closeAll]
  split
  · cases r[k]? <;> rfl
  · rfl

theorem outbox_push {c : Connection} (h : c.outbox = []) (r : Roster) :
    outbox (r.push c) = r.outbox := by
  funext k
  rw [outbox, outbox, Array.getElem?_push]
  split
  · next hk =>
    rw [hk, Array.getElem?_eq_none (Nat.le_refl _)]
    exact h
  · rfl

/-- A send is the send of one connection. -/
theorem send_eq {c : Connection} (hk : r[k]? = some c) (data : Bytes) :
    r.send k data = ((c.send data).1, r.setIfInBounds k (c.send data).2) := by
  unfold send
  rw [hk]

theorem send_of_none (hk : r[k]? = none) (data : Bytes) : r.send k data = (false, r) := by
  unfold send
  rw [hk]

theorem setIfInBounds_eq_update {c : Connection} (hk : r[k]? = some c)
    (f : Connection → Connection) : r.setIfInBounds k (f c) = r.update k f := by
  have hlt := (Array.getElem?_eq_some_iff.mp hk).1
  refine Array.ext_getElem? fun j => ?_
  rw [update, Array.getElem?_modify, Array.getElem?_setIfInBounds]
  by_cases hj : k = j
  · subst hj
    rw [if_pos rfl, if_pos hlt, if_pos rfl, hk]
    rfl
  · rw [if_neg hj, if_neg hj]

/-- A send is an event of one connection, if there is one. -/
theorem send_eq_update (r : Roster) (k : Nat) (data : Bytes) :
    (r.send k data).2 = r.update k fun c => (c.send data).2 := by
  cases hk : r[k]? with
  | some c =>
    rw [send_eq hk]
    exact setIfInBounds_eq_update hk fun c => (c.send data).2
  | none =>
    rw [send_of_none hk]
    refine Array.ext_getElem? fun j => ?_
    rw [update, Array.getElem?_modify]
    by_cases hj : k = j
    · subst hj
      rw [if_pos rfl, hk]
      rfl
    · rw [if_neg hj]

theorem queues_send (h : (r.send k data).1 = true) : r.Queues (r.send k data).2 k data := by
  cases hk : r[k]? with
  | none =>
    rw [send_of_none hk] at h
    cases h
  | some c =>
    rw [send_eq hk] at h ⊢
    obtain ⟨hlt, _⟩ := Array.getElem?_eq_some_iff.mp hk
    generalize hsend : c.send data = result at h ⊢
    obtain ⟨taken, d⟩ := result
    obtain rfl : taken = true := h
    obtain ⟨_, rfl⟩ := Connection.send_true hsend
    refine ⟨?_, fun j hj => ?_⟩
    · rw [outbox, Array.getElem?_setIfInBounds_self_of_lt hlt, outbox, hk]
      rfl
    · rw [outbox, Array.getElem?_setIfInBounds_ne (Ne.symm hj), outbox]

theorem send_false (h : (r.send k data).1 = false) : (r.send k data).2 = r := by
  cases hk : r[k]? with
  | none => rw [send_of_none hk]
  | some c =>
    rw [send_eq hk] at h ⊢
    obtain ⟨hlt, rfl⟩ := Array.getElem?_eq_some_iff.mp hk
    generalize hsend : r[k].send data = result at h ⊢
    obtain ⟨taken, d⟩ := result
    obtain rfl : taken = false := h
    obtain rfl := Connection.send_false hsend
    exact (Array.setIfInBounds_def ..).trans ((dif_pos hlt).trans (Array.set_getElem_self hlt))

end

end Roster

/-! ## The pooled connection -/

namespace Pool

variable {κ : Type} {p : Pool κ} {live : κ → Bool} {a : SocketAddr} {fresh k : κ}

/-- The connection that a pool keeps for a peer. -/
def Maps (p : Pool κ) (a : SocketAddr) (k : κ) : Prop :=
  ∃ i, p.slotOf? a = some i ∧ p.slot? i = some k

theorem maps_assign {opened : Bool} (h : (p.assign live a fresh).found = some (k, opened)) :
    (p.assign live a fresh).pool.Maps a k := by
  unfold assign at h ⊢
  rcases p.exists_free live with ⟨i, hf, hi, _⟩ | ⟨hf, _⟩
  · rw [hf] at h ⊢
    cases h
    have hi' : i < (p.release i).1.size := (p.empties_release i).size ▸ hi
    refine ⟨i, ?_, ?_⟩
    · rw [slotOf?_seat, if_pos rfl]
    · rw [slot?_seat hi', if_pos rfl]
  · rw [hf] at h
    cases h

theorem maps_attempt {opened : Bool} (h : (p.attempt live a fresh).found = some (k, opened)) :
    (p.attempt live a fresh).pool.Maps a k := by
  unfold attempt at h ⊢
  cases hi : p.slotOf? a with
  | none =>
    rw [hi] at h
    exact maps_assign h
  | some i =>
    rw [hi] at h
    dsimp only at h ⊢
    cases hk : (p.slot? i).filter live with
    | none =>
      rw [hk] at h
      exact maps_assign h
    | some l =>
      rw [hk] at h
      cases h
      exact ⟨i, hi, (Option.filter_eq_some_iff.mp hk).1⟩

theorem maps_acquire {x : Acquired κ} (h : p.acquire live a fresh = some x) :
    x.pool.Maps a x.connection := by
  obtain ⟨⟨k, opened⟩, hfound, rfl⟩ := Option.map_eq_some_iff.mp h
  exact maps_attempt hfound

/-- A pool without connections has room, unless it has no slots. -/
theorem acquire_eq_none_iff (hempty : ∀ i, p.slot? i = none) :
    p.acquire live a fresh = none ↔ p.size = 0 := by
  have hassign (q : Pool κ) (hq : ∀ i, q.slot? i = none) :
      (q.assign live a fresh).found = none ↔ q.size = 0 := by
    unfold assign
    rcases q.exists_free live with ⟨i, hf, hi, _⟩ | ⟨hf, hbusy⟩
    · rw [hf]
      exact iff_of_false nofun (Nat.ne_of_gt (Nat.zero_lt_of_lt hi))
    · rw [hf]
      refine iff_of_true rfl (Nat.eq_zero_of_not_pos fun hpos => ?_)
      obtain ⟨k, hk, _⟩ := hbusy 0 hpos
      rw [hq] at hk
      cases hk
  unfold acquire
  rw [Option.map_eq_none_iff]
  unfold attempt
  cases hi : p.slotOf? a with
  | none => exact hassign p hempty
  | some i =>
    dsimp only
    have he := p.empties_release i
    rw [hempty i, ← he.size]
    refine hassign _ fun j => ?_
    rw [he.slots, hempty, ite_self]

end Pool

namespace Channel

variable {ch : Channel} {c : Config} {r : Roster} {peer : SocketAddr} {data : Bytes} {k : Nat}

/-- A pooled connection to a peer that was found, with whatever was closed and opened for it. -/
structure Pools (ch : Channel) (r : Roster) (peer : SocketAddr) (x : Reached) : Prop where
  maps : x.channel.pool.Maps peer x.connection
  inbound : x.channel.inbound = ch.inbound
  outbox : x.roster.outbox = r.outbox

theorem pools_connect {x : Reached} (h : ch.connect c r peer = some x) : ch.Pools r peer x := by
  obtain ⟨a, ha, rfl⟩ := Option.map_eq_some_iff.mp h
  refine ⟨Pool.maps_acquire ha, rfl, ?_⟩
  dsimp only
  split
  · rw [Roster.outbox_push rfl, Roster.outbox_closeAll]
  · exact r.outbox_closeAll a.closed

theorem pools_reach {x : Reached} (h : ch.reach c r peer = some x) : ch.Pools r peer x := by
  unfold reach at h
  cases hx : ch.connect c r peer with
  | some x' =>
    rw [hx] at h
    obtain rfl := Option.some.inj h
    exact pools_connect hx
  | none =>
    rw [hx] at h
    obtain ⟨x', hx', rfl⟩ := Option.map_eq_some_iff.mp h
    have hpools := pools_connect hx'
    exact ⟨hpools.maps, hpools.inbound, hpools.outbox.trans (r.outbox_closeAll _)⟩

/-- Only a pool without slots has no connection to offer. -/
theorem reach_eq_none_iff : ch.reach c r peer = none ↔ ch.pool.size = 0 := by
  have houtside {p : Pool Nat} {i : Nat} (hi : ¬ i < p.size) : p.slot? i = none :=
    Option.eq_none_iff_forall_ne_some.mpr fun k hk => hi (Pool.lt_size hk)
  unfold reach
  cases hx : ch.connect c r peer with
  | some x =>
    refine iff_of_false nofun fun hzero => ?_
    have hnone : ch.connect c r peer = none := Option.map_eq_none_iff.mpr
      ((Pool.acquire_eq_none_iff fun i => houtside (by omega)).mpr hzero)
    cases hx.symm.trans hnone
  | none =>
    have he := ch.pool.empties_releaseAll (List.range ch.pool.size)
    have htorn : ∀ i, ch.pool.teardown.1.slot? i = none := fun i => by
      refine (he.slots i).trans ?_
      split
      · rfl
      · next hi => exact houtside (mt List.mem_range.mpr hi)
    have hsize : ch.pool.teardown.1.size = ch.pool.size := he.size
    rw [← hsize]
    exact Option.map_eq_none_iff.trans
      (Option.map_eq_none_iff.trans (Pool.acquire_eq_none_iff htorn))

/-! ## Connections that the peer opened -/

/-- A live connection of a peer. -/
def IsFrom (r : Roster) (peer : SocketAddr) (k : Nat) : Prop :=
  r.peer? k = some peer ∧ r.live k = true

/-- The first live connection that a peer opened. -/
def Earliest (ch : Channel) (r : Roster) (peer : SocketAddr) (k : Nat) : Prop :=
  IsFrom r peer k ∧ ∃ before later, ch.inbound.connections = before ++ k :: later ∧
    ∀ j ∈ before, ¬ IsFrom r peer j

theorem isFrom_iff : IsFrom r peer k ↔ (r.peer k == peer && r.live k) = true := by
  unfold IsFrom Roster.peer? Roster.peer Roster.live
  cases r[k]? <;> simp

theorem inboundConnection_eq_some_iff :
    ch.inboundConnection r peer = some k ↔ ch.Earliest r peer k := by
  have hfind : ch.inboundConnection r peer =
      ch.inbound.connections.find? fun k => r.peer k == peer && r.live k := by
    unfold inboundConnection Inbound.find?
    dsimp only
    have hboth : (ch.inbound.connections.filter (r.peer · == peer)).find? r.live =
        ch.inbound.connections.find? fun k => r.peer k == peer && r.live k := by
      rw [List.find?_filter]
      simp only [Bool.decide_and, Bool.decide_eq_true]
    rw [← hboth]
    generalize ch.inbound.connections.filter (r.peer · == peer) = matching
    cases hlive : matching.find? r.live with
    | some k =>
      rw [Option.some_or, Option.filter_some, if_pos (List.find?_some hlive)]
    | none =>
      rw [Option.none_or, Option.filter_eq_none_iff]
      intro k hk
      exact List.find?_eq_none.mp hlive k (List.mem_of_mem_head? hk)
  rw [hfind, List.find?_eq_some_iff_append]
  simp only [Earliest, isFrom_iff, Bool.not_eq_true, Bool.not_eq_true']

/-! ## One message -/

/-- What becomes of a message to a peer. -/
structure Hands (ch : Channel) (r : Roster) (peer : SocketAddr) (data : Bytes) (d : Delivery) :
    Prop where
  /-- one that is reported as taken is queued on one connection, and on no other -/
  once : d.taken = true → ∃ k, d.connection = some k ∧ r.Queues d.roster k data
  /-- one that is reported as not taken is queued nowhere -/
  never : d.taken = false → d.roster.outbox = r.outbox
  /-- the earliest live connection that the peer opened is used if it takes the message, and
  then nothing else happens -/
  preferred : ∀ k, ch.Earliest r peer k → (r.send k data).1 = true →
    d = { taken := true, connection := some k, roster := (r.send k data).2, channel := ch }
  /-- otherwise it is the one that the pool keeps for the peer, if the pool has a slot at all -/
  pooled : (∀ k, ch.Earliest r peer k → (r.send k data).1 = false) →
    d.channel.inbound = ch.inbound ∧ (∀ k, d.connection = some k → d.channel.pool.Maps peer k) ∧
      (d.connection = none ↔ ch.pool.size = 0)

theorem hands_deliverPooled (ch : Channel) (c : Config) (r : Roster) (peer : SocketAddr)
    (data : Bytes) (hrefused : ∀ k, ch.Earliest r peer k → (r.send k data).1 = false) :
    ch.Hands r peer data (ch.deliverPooled c r peer data) := by
  have hpreferred {P : Prop} {k : Nat} (hk : ch.Earliest r peer k)
      (htaken : (r.send k data).1 = true) : P := by
    rw [hrefused k hk] at htaken
    cases htaken
  unfold deliverPooled
  cases hx : ch.reach c r peer with
  | none =>
    exact ⟨nofun, fun _ => rfl, fun k hk htaken => hpreferred hk htaken,
      fun _ => ⟨rfl, nofun, iff_of_true rfl (reach_eq_none_iff.mp hx)⟩⟩
  | some x =>
    obtain ⟨hmaps, hinbound, houtbox⟩ := pools_reach hx
    have hslots : ch.pool.size ≠ 0 := fun hzero => by
      cases hx.symm.trans (reach_eq_none_iff.mpr hzero)
    dsimp only
    refine ⟨fun htaken => ⟨_, rfl, ?_⟩, fun hnot => ?_, fun k hk htaken => hpreferred hk htaken,
      fun _ => ⟨hinbound, ?_, iff_of_false nofun hslots⟩⟩
    · obtain ⟨hqueued, hothers⟩ := Roster.queues_send htaken
      rw [houtbox] at hqueued hothers
      exact ⟨hqueued, hothers⟩
    · exact (congrArg Roster.outbox (Roster.send_false hnot)).trans houtbox
    · rintro k ⟨⟩
      exact hmaps

/-- Whatever connections there are, and whatever state they are in. -/
theorem hands_deliver (ch : Channel) (c : Config) (r : Roster) (peer : SocketAddr)
    (data : Bytes) : ch.Hands r peer data (ch.deliver c r peer data) := by
  unfold deliver
  cases hk : ch.inboundConnection r peer with
  | none =>
    refine ch.hands_deliverPooled c r peer data fun k hearliest => ?_
    cases hk.symm.trans (inboundConnection_eq_some_iff.mpr hearliest)
  | some k =>
    have hunique {j : Nat} (hj : ch.Earliest r peer j) : j = k :=
      Option.some.inj ((inboundConnection_eq_some_iff.mpr hj).symm.trans hk)
    have hsend : r.send k data = ((r.send k data).1, (r.send k data).2) := rfl
    dsimp only
    rw [hsend]
    cases htaken : (r.send k data).1 with
    | true =>
      refine ⟨fun _ => ⟨k, rfl, Roster.queues_send htaken⟩, nofun, fun j hj _ => ?_,
        fun hrefused => ?_⟩
      · rw [hunique hj]
      · rw [hrefused k (inboundConnection_eq_some_iff.mp hk)] at htaken
        cases htaken
    | false =>
      dsimp only
      rw [Roster.send_false htaken]
      exact ch.hands_deliverPooled c r peer data fun j hj => hunique hj ▸ htaken

end Channel

end Courier.Stream
