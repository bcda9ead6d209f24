import Courier.Proofs.Stream.Delivery
import Courier.Proofs.Stream.Roster
import Courier.Proofs.Stream.Turns

/-!
A channel in service. Connections are asked for, accepted and cleaned up, anything may happen to
each of them at any moment, and both sides are polled for messages. A tick of the keepalive
timer and the search for a connection in a full pool are runs of such events.
-/

namespace Courier.Stream

/-- Who opened a connection: a peer, or this side. -/
inductive Side where
  | inbound
  | outbound
  deriving DecidableEq

/-! ## One poll -/

namespace Channel

/-- The connections that are polled for messages. -/
def held (ch : Channel) : Side → List Nat
  | .inbound => ch.inbound.connections
  | .outbound => ch.pool.held

/-- The connections in slots. -/
def pooled (ch : Channel) : List Nat := ch.pool.connections

/-- The connections that peers opened. -/
def accepted (ch : Channel) : List Nat := ch.inbound.connections

def poll (ch : Channel) (r : Roster) : Side → Option Received × Roster × Channel
  | .inbound => ch.pollInbound r
  | .outbound => ch.pollOutbound r

/-- The connection that a poll takes a message from. -/
def turn (ch : Channel) (r : Roster) : Side → Option Nat
  | .inbound => (ch.inbound.poll r.peer r.waiting).1
  | .outbound => (ch.pool.poll r.waiting).yielding

/-- What the search for a message makes of a channel. -/
inductive Served (waiting : Nat → Bool) (ch : Channel) : Side → Option Nat → Channel → Prop
  | inbound (found : Option Nat) (inbound : Inbound Nat)
      (polls : Inbound.Polls waiting ch.inbound found inbound) :
      Served waiting ch .inbound found { ch with inbound }
  | outbound (found : Option Nat) (pool : Pool Nat)
      (serves : Pool.Serves waiting ch.pool found pool) :
      Served waiting ch .outbound found { ch with pool }

section

variable {waiting : Nat → Bool} {ch ch' : Channel} {side : Side} {found : Option Nat} {k : Nat}

theorem Served.served (h : Served waiting ch side (some k) ch') :
    k ∈ ch.held side ∧ waiting k = true := by
  cases h with
  | inbound _ _ polls => exact polls.served k rfl
  | outbound _ _ serves => exact serves.served

theorem Served.vain (h : Served waiting ch side none ch') (hk : k ∈ ch.held side) :
    waiting k = false := by
  cases h with
  | inbound _ _ polls => exact polls.vain rfl k hk
  | outbound _ _ serves => exact serves.vain hk

theorem Served.accepted (h : Served waiting ch side found ch') :
    ch'.inbound.connections = ch.inbound.connections := by
  cases h with
  | inbound _ _ polls => exact polls.connections
  | outbound => rfl

theorem Served.pooled (h : Served waiting ch side found ch') :
    ch'.pool = ch.pool ∨ Pool.Serves waiting ch.pool found ch'.pool := by
  cases h with
  | inbound => exact Or.inl rfl
  | outbound _ _ serves => exact Or.inr serves

theorem Served.kept (h : Served waiting ch side found ch') {side' : Side}
    (hk : k ∈ ch.held side') : k ∈ ch'.held side' ∨ waiting k = false := by
  cases side' with
  | inbound => exact Or.inl (h.accepted ▸ hk : k ∈ ch'.inbound.connections)
  | outbound =>
    rcases h.pooled with hsame | hserves
    · exact Or.inl (hsame ▸ hk : k ∈ ch'.pool.held)
    · exact hserves.kept hk

theorem Served.of_held (h : Served waiting ch side found ch') {side' : Side}
    (hk : k ∈ ch'.held side') : k ∈ ch.held side' := by
  cases side' with
  | inbound => exact (h.accepted ▸ hk : k ∈ ch.inbound.connections)
  | outbound =>
    rcases h.pooled with hsame | hserves
    · exact (hsame ▸ hk : k ∈ ch.pool.held)
    · refine Pool.mem_held.mpr ((Pool.mem_held.mp hk).imp hserves.of_released ?_)
      exact fun ⟨i, hi⟩ => ⟨i, hserves.slot?_eq i ▸ hi⟩

end

/-- Everything that a poll can come to. -/
inductive Polled (ch : Channel) (r : Roster) (side : Side) :
    Option Nat → Option Received × Roster × Channel → Prop
  | found (k : Nat) (data : Bytes) (rest : List Bytes) (r' : Roster) (ch' : Channel)
      (served : Served r.waiting ch side (some k) ch') (inbox : r.inbox k = data :: rest)
      (takes : r.Takes r' k) : Polled ch r side (some k) (some (r.message k data), r', ch')
  | vain (ch' : Channel) (served : Served r.waiting ch side none ch') :
      Polled ch r side none (none, r, ch')

theorem Polled.served {ch : Channel} {r : Roster} {side : Side} {found : Option Nat}
    {result : Option Received × Roster × Channel} (h : Polled ch r side found result) :
    Served r.waiting ch side found result.2.2 := by
  cases h <;> assumption

theorem polled_of_served {ch ch' : Channel} {r : Roster} {side : Side} {found : Option Nat}
    (h : Served r.waiting ch side found ch') :
    Polled ch r side found (match found.bind r.take with
      | some (message, r) => (some message, r, ch')
      | none => (none, r, ch')) := by
  cases found with
  | none => exact .vain ch' h
  | some k =>
    obtain ⟨data, rest, hinbox⟩ := List.exists_cons_of_ne_nil (Roster.waiting_iff.mp h.served.2)
    obtain ⟨r', htake, htakes⟩ := Roster.take_of_inbox hinbox
    rw [Option.bind_some, htake]
    exact .found k data rest r' ch' h hinbox htakes

theorem polled_poll {ch : Channel} (hp : ch.pool.Placed) (r : Roster) (side : Side) :
    Polled ch r side (ch.turn r side) (ch.poll r side) := by
  cases side with
  | inbound => exact polled_of_served (.inbound _ _ (Inbound.polls_poll r.peer r.waiting _))
  | outbound => exact polled_of_served (.outbound _ _ (Pool.serves_poll r.waiting hp))

/-! ## The search for a pooled connection -/

/-- Everything that the wish for a pooled connection can come to. -/
inductive Connects (ch : Channel) (c : Config) (r : Roster) (a : SocketAddr) :
    Option Reached → Prop
  | held (i k : Nat) (mapped : ch.pool.slotOf? a = some i) (found : ch.pool.slot? i = some k)
      (alive : r.live k = true) : Connects ch c r a
      (some { connection := k, opened := false, closed := [], roster := r, channel := ch })
  | full (unmapped : ch.pool.slotOf? a = none)
      (busy : ∀ i < ch.pool.size, ∃ k, ch.pool.slot? i = some k ∧ r.live k = true) :
      Connects ch c r a none
  /-- slots of disconnected connections are emptied, and one of them is taken -/
  | placed (places : List Nat) (i : Nat) (pool : Pool Nat) (closed : List Nat)
      (empties : Pool.Empties places ch.pool pool closed) (cursor : pool.cursor = ch.pool.cursor)
      (taken : i ∈ places) (inside : i < ch.pool.size)
      (dead : ∀ j ∈ places, ∀ k, ch.pool.slot? j = some k → r.live k = false)
      (stale : ∀ j, ch.pool.slotOf? a = some j → j ∈ places) : Connects ch c r a
      (some
        { connection := r.size
          opened := true
          closed
          roster := (r.closeAll closed).push (.dial c a)
          channel := { ch with pool := pool.seat i a r.size } })

theorem connects_connect {ch : Channel} {r : Roster} (h : ch.pool.Sound r.peer?) (c : Config)
    (a : SocketAddr) : Connects ch c r a (ch.connect c r a) := by
  have ht := h.attempts r.live a r.size
  have hcursor := ch.pool.cursor_attempt r.live a r.size
  unfold connect Pool.acquire
  dsimp only
  generalize ch.pool.attempt r.live a r.size = t at ht hcursor
  cases ht with
  | held i k mapped found alive => exact .held i k mapped found alive
  | full unmapped busy => exact .full unmapped busy
  | placed places i pool closed empties taken inside dead stale =>
    exact .placed places i pool closed empties hcursor taken inside dead stale

end Channel

/-! ## Runs -/

/-- A channel, and the connections that it and others hold. -/
structure Service where
  config : Config
  roster : Roster := #[]
  channel : Channel

namespace Service

inductive Event where
  /-- a pooled connection to a peer is asked for -/
  | acquire (peer : SocketAddr)
  | teardown
  | cleanup (side : Side)
  /-- a peer opens a connection -/
  | accept (peer : SocketAddr)
  /-- somebody else opens one -/
  | elsewhere (config : Config) (peer : SocketAddr)
  /-- activity of a peer is noted, maybe late, or for a connection that is gone -/
  | note (peer : SocketAddr) (count : Nat)
  | happen (k : Nat) (e : Connection.Event)
  | poll (side : Side)

/-- A channel without connections, which tracks recent activity or not. -/
def init (c : Config) (tracked : Bool) : Service where
  config := c
  channel :=
    { pool := .empty c.poolSize
      inbound := { recent := if tracked then some [] else none } }

def step (s : Service) : Event → Service
  | .acquire peer =>
    match s.channel.connect s.config s.roster peer with
    | none => s
    | some reached => { s with roster := reached.roster, channel := reached.channel }
  | .teardown =>
    let (_, roster, channel) := s.channel.teardown s.roster
    { s with roster, channel }
  | .cleanup .outbound =>
    let (pool, closed) := s.channel.pool.cleanup s.roster.live
    { s with roster := s.roster.closeAll closed, channel := { s.channel with pool } }
  | .cleanup .inbound =>
    let inbound := s.channel.inbound.cleanup s.roster.live s.roster.waiting
    { s with channel := { s.channel with inbound } }
  | .accept peer =>
    let inbound := s.channel.inbound.add s.roster.size
    { s with
      roster := s.roster.push (.accept s.config peer)
      channel := { s.channel with inbound } }
  | .elsewhere config peer => { s with roster := s.roster.push (.dial config peer) }
  | .note peer count =>
    { s with channel := { s.channel with inbound := s.channel.inbound.noteActivity peer count } }
  | .happen k e => { s with roster := s.roster.update k (·.step e) }
  | .poll side =>
    let (_, roster, channel) := s.channel.poll s.roster side
    { s with roster, channel }

def after (s : Service) (events : List Event) : Service := events.foldl step s

def run (c : Config) (tracked : Bool) (events : List Event) : Service :=
  (init c tracked).after events

theorem after_cons (s : Service) (e : Event) (events : List Event) :
    s.after (e :: events) = (s.step e).after events := rfl

theorem after_append (s : Service) (events events' : List Event) :
    s.after (events ++ events') = (s.after events).after events' := List.foldl_append

theorem config_step (s : Service) (e : Event) : (s.step e).config = s.config := by
  cases e with
  | acquire a =>
    unfold step
    dsimp only
    split <;> rfl
  | cleanup side => cases side <;> rfl
  | _ => rfl

theorem config_run (c : Config) (tracked : Bool) (events : List Event) :
    (run c tracked events).config = c := by
  induction events using List.reverseRecOn with
  | nil => rfl
  | append_singleton events e ih =>
    rw [run, after_append]
    exact (config_step _ e).trans ih

/-- What a tick of the keepalive timer comes to. -/
def ticks (s : Service) (threshold : Nat) : List Event :=
  s.channel.connections.map (.happen · (.tick threshold)) ++
    [.cleanup .outbound, .cleanup .inbound]

theorem after_map_happen (s : Service) (ks : List Nat) (e : Connection.Event) :
    s.after (ks.map (.happen · e)) =
      { s with roster := ks.foldl (fun r k => r.update k (·.step e)) s.roster } := by
  induction ks generalizing s with
  | nil => rfl
  | cons k ks ih =>
    rw [List.map_cons, after_cons, ih]
    rfl

theorem after_ticks (s : Service) (threshold : Nat) : s.after (s.ticks threshold) =
    { s with
      roster := (s.channel.tick s.roster threshold).1
      channel := (s.channel.tick s.roster threshold).2 } := by
  rw [ticks, after_append, after_map_happen]
  rfl

/-- What the search for a connection in a pool that may be full comes to. -/
def searches (s : Service) (peer : SocketAddr) : List Event :=
  match s.channel.connect s.config s.roster peer with
  | some _ => [.acquire peer]
  | none => [.teardown, .acquire peer]

/-- What is left when a connection was looked for. -/
def withReached (s : Service) (x : Reached) : Service :=
  { s with roster := x.roster, channel := x.channel }

theorem after_searches (s : Service) {peer : SocketAddr} {x : Reached}
    (hx : s.channel.reach s.config s.roster peer = some x) :
    s.after (s.searches peer) = s.withReached x := by
  unfold searches
  unfold Channel.reach at hx
  cases hc : s.channel.connect s.config s.roster peer with
  | some y =>
    rw [hc] at hx
    cases hx
    show s.step (.acquire peer) = _
    rw [step, hc]
    rfl
  | none =>
    rw [hc] at hx
    obtain ⟨y, hy, rfl⟩ := Option.map_eq_some_iff.mp hx
    show (s.step .teardown).step (.acquire peer) = _
    have hy' : (s.step .teardown).channel.connect (s.step .teardown).config
        (s.step .teardown).roster peer = some y := hy
    rw [step, hy']
    rfl

/-! ## The steps -/

/-- Everything that an event can do. -/
inductive Steps (s : Service) : Event → Service → Prop
  | idle (a : SocketAddr) : Steps s (.acquire a) s
  /-- slots of disconnected connections are emptied, and one of them is taken -/
  | seated (a : SocketAddr) (places : List Nat) (i : Nat) (pool : Pool Nat) (closed : List Nat)
      (empties : Pool.Empties places s.channel.pool pool closed)
      (cursor : pool.cursor = s.channel.pool.cursor) (taken : i ∈ places)
      (inside : i < s.channel.pool.size)
      (stale : ∀ j, s.channel.pool.slotOf? a = some j → j ∈ places) :
      Steps s (.acquire a)
        { s with
          roster := (s.roster.closeAll closed).push (.dial s.config a)
          channel := { s.channel with pool := pool.seat i a s.roster.size } }
  | torn (pool : Pool Nat) (closed : List Nat)
      (empties : Pool.Empties (List.range s.channel.pool.size) s.channel.pool pool closed)
      (cursor : pool.cursor = 0) :
      Steps s .teardown
        { s with roster := s.roster.closeAll closed, channel := { s.channel with pool } }
  | reclaimed (places : List Nat) (pool : Pool Nat) (closed : List Nat)
      (empties : Pool.Empties places s.channel.pool pool closed)
      (cursor : pool.cursor = s.channel.pool.cursor) :
      Steps s (.cleanup .outbound)
        { s with roster := s.roster.closeAll closed, channel := { s.channel with pool } }
  | forgotten :
      Steps s (.cleanup .inbound)
        { s with
          channel :=
            { s.channel with
              inbound := s.channel.inbound.cleanup s.roster.live s.roster.waiting } }
  | accepted (a : SocketAddr) :
      Steps s (.accept a)
        { s with
          roster := s.roster.push (.accept s.config a)
          channel := { s.channel with inbound := s.channel.inbound.add s.roster.size } }
  | opened (config : Config) (a : SocketAddr) :
      Steps s (.elsewhere config a) { s with roster := s.roster.push (.dial config a) }
  | noted (a : SocketAddr) (count : Nat) :
      Steps s (.note a count)
        { s with
          channel := { s.channel with inbound := s.channel.inbound.noteActivity a count } }
  | happened (k : Nat) (e : Connection.Event) :
      Steps s (.happen k e) { s with roster := s.roster.update k (·.step e) }
  | polled (side : Side) (found : Option Nat) (message : Option Received) (roster : Roster)
      (channel : Channel) (turn : s.channel.turn s.roster side = found)
      (result : s.channel.poll s.roster side = (message, roster, channel))
      (polled : s.channel.Polled s.roster side found (message, roster, channel)) :
      Steps s (.poll side) { s with roster, channel }

theorem steps_step {s : Service} (hpool : s.channel.pool.Sound s.roster.peer?)
    (hplaced : s.channel.pool.Placed) (e : Event) : Steps s e (s.step e) := by
  cases e with
  | acquire a =>
    have hc := Channel.connects_connect hpool s.config a
    unfold step
    dsimp only
    generalize s.channel.connect s.config s.roster a = found at hc
    cases hc with
    | held => exact .idle a
    | full => exact .idle a
    | placed places i pool closed empties cursor taken inside _ stale =>
      exact .seated a places i pool closed empties cursor taken inside stale
  | teardown =>
    have he := s.channel.pool.empties_releaseAll (List.range s.channel.pool.size)
    exact .torn _ _ ⟨he.slots, he.peers, he.size, he.released, he.mem, he.nodup⟩ rfl
  | cleanup side =>
    cases side with
    | inbound => exact .forgotten
    | outbound =>
      exact .reclaimed _ _ _ (s.channel.pool.empties_releaseAll _)
        (s.channel.pool.cursor_releaseAll _)
  | accept a => exact .accepted a
  | elsewhere config a => exact .opened config a
  | note a count => exact .noted a count
  | happen k e => exact .happened k e
  | poll side => exact .polled side _ _ _ _ rfl rfl (Channel.polled_poll hplaced s.roster side)

/-! ## The invariant -/

/-- Every connection is held in one place, and the pool is in order. -/
structure Sound (s : Service) : Prop where
  pool : s.channel.pool.Sound s.roster.peer?
  placed : s.channel.pool.Placed
  size : s.channel.pool.size = s.config.poolSize
  known : ∀ side, ∀ k ∈ s.channel.held side, k < s.roster.size
  outside : ∀ k ∈ s.channel.pool.released, k ∉ s.channel.pool.connections
  apart : ∀ k ∈ s.channel.inbound.connections, k ∉ s.channel.pool.held
  distinct : s.channel.inbound.connections.Nodup

theorem sound_init (c : Config) (tracked : Bool) : (init c tracked).Sound := by
  have hslot (i : Nat) : (init c tracked).channel.pool.slot? i = none := by
    simp only [init, Pool.empty, Pool.slot?, Array.getElem?_replicate]
    split <;> rfl
  have hheld (side : Side) : ∀ k, k ∉ (init c tracked).channel.held side := by
    intro k hk
    cases side with
    | inbound => cases hk
    | outbound =>
      rcases Pool.mem_held.mp hk with hk | ⟨i, hi⟩
      · cases hk
      · cases (hslot i).symm.trans hi
  constructor
  case pool =>
    refine ⟨List.nodup_nil, fun a i => ?_, fun i k hk => ?_⟩
    · rw [hslot]
      simp [init, Pool.empty, Pool.slotOf?]
    · cases (hslot i).symm.trans hk
  case placed => exact (Nat.eq_zero_or_pos _).symm
  case size => exact Array.size_replicate
  case known => exact fun side k hk => absurd hk (hheld side k)
  case outside => exact fun k hk => absurd hk List.not_mem_nil
  case apart => exact fun k hk => absurd hk List.not_mem_nil
  case distinct => exact List.nodup_nil

section

variable {s : Service}

theorem Sound.lt_of_slot (h : s.Sound) {i k : Nat} (hk : s.channel.pool.slot? i = some k) :
    k < s.roster.size :=
  h.known .outbound k (Pool.mem_held.mpr (Or.inr ⟨i, hk⟩))

theorem Sound.withRoster (h : s.Sound) {r : Roster} (hsize : s.roster.size ≤ r.size)
    (hpeer : ∀ k < s.roster.size, r.peer? k = s.roster.peer? k) :
    Sound { s with roster := r } where
  pool := h.pool.congr_peer fun _ k hk => hpeer k (h.lt_of_slot hk)
  placed := h.placed
  size := h.size
  known := fun side k hk => Nat.lt_of_lt_of_le (h.known side k hk) hsize
  outside := h.outside
  apart := h.apart
  distinct := h.distinct

theorem Sound.evolved (h : s.Sound) {r : Roster} {l : List (Nat × Bytes)}
    (he : s.roster.Evolves r l) : Sound { s with roster := r } :=
  h.withRoster he.size he.peer

theorem Sound.emptied (h : s.Sound) {places : List Nat} {pool : Pool Nat} {closed : List Nat}
    (he : Pool.Empties places s.channel.pool pool closed) (hplaced : pool.Placed) :
    Sound { s with channel := { s.channel with pool } } := by
  have hheld := he.mem_held fun _ _ _ => h.pool.apart
  constructor
  case pool => exact h.pool.empties he
  case placed => exact hplaced
  case size => exact he.size.trans h.size
  case known =>
    intro side k hk
    cases side with
    | inbound => exact h.known .inbound k hk
    | outbound => exact h.known .outbound k ((hheld k).mp hk)
  case outside =>
    show ∀ k ∈ pool.released, k ∉ pool.connections
    intro k hk
    rw [he.mem_connections fun _ _ _ => h.pool.apart]
    rw [he.released] at hk
    rcases List.mem_append.mp hk with hk | hk
    · exact fun hin => h.outside k hk hin.1
    · exact fun hin => hin.2 hk
  case apart => exact fun k hk hin => h.apart k hk ((hheld k).mp hin)
  case distinct => exact h.distinct

theorem Sound.seated (h : s.Sound) {i : Nat} (hi : i < s.channel.pool.size)
    (hempty : s.channel.pool.slot? i = none) {a : SocketAddr}
    (hunmapped : s.channel.pool.slotOf? a = none) :
    Sound
      { s with
        roster := s.roster.push (.dial s.config a)
        channel := { s.channel with pool := s.channel.pool.seat i a s.roster.size } } := by
  have hpush := s.roster.evolves_push (c := .dial s.config a) rfl
  have hsize : (s.roster.push (.dial s.config a)).size = s.roster.size + 1 := Array.size_push _
  have hmem := Pool.mem_connections_seat hi hempty a s.roster.size
  have hheld := Pool.mem_held_seat hi hempty a s.roster.size
  constructor
  case pool =>
    refine h.pool.seat hi hempty hunmapped ?_ fun j k hk => hpush.peer k (h.lt_of_slot hk)
    simp [Roster.peer?, Connection.dial]
  case placed =>
    have hcount : (s.channel.pool.seat i a s.roster.size).size = s.channel.pool.size :=
      Array.size_setIfInBounds
    show _ ∨ _
    rw [hcount]
    exact h.placed
  case size => exact Array.size_setIfInBounds.trans h.size
  case known =>
    intro side k hk
    rw [hsize]
    cases side with
    | inbound => exact Nat.lt_succ_of_lt (h.known .inbound k hk)
    | outbound =>
      rcases (hheld k).mp hk with rfl | hk
      · exact Nat.lt_succ_self _
      · exact Nat.lt_succ_of_lt (h.known .outbound k hk)
  case outside =>
    intro k hk hin
    rcases (hmem k).mp hin with rfl | hin
    · exact Nat.lt_irrefl _ (h.known .outbound _ (Pool.mem_held.mpr (Or.inl hk)))
    · exact h.outside k hk hin
  case apart =>
    intro k hk hin
    rcases (hheld k).mp hin with rfl | hin
    · exact Nat.lt_irrefl _ (h.known .inbound _ hk)
    · exact h.apart k hk hin
  case distinct => exact h.distinct

theorem Sound.accepted (h : s.Sound) (a : SocketAddr) :
    Sound
      { s with
        roster := s.roster.push (.accept s.config a)
        channel := { s.channel with inbound := s.channel.inbound.add s.roster.size } } := by
  have hpush := s.roster.evolves_push (c := .accept s.config a) rfl
  have hsize : (s.roster.push (.accept s.config a)).size = s.roster.size + 1 := Array.size_push _
  have hfresh (side : Side) : s.roster.size ∉ s.channel.held side := fun hk =>
    Nat.lt_irrefl _ (h.known side _ hk)
  have hmem (k : Nat) (hk : k ∈ (s.channel.inbound.add s.roster.size).connections) :
      k ∈ s.channel.inbound.connections ∨ k = s.roster.size := by
    simpa [Inbound.add] using hk
  refine { h.evolved hpush with
    known := fun side k hk => ?_
    apart := fun k hk => ?_
    distinct := ?_ }
  · rw [hsize]
    cases side with
    | inbound =>
      rcases hmem k hk with hk | rfl
      · exact Nat.lt_succ_of_lt (h.known .inbound k hk)
      · exact Nat.lt_succ_self _
    | outbound => exact Nat.lt_succ_of_lt (h.known .outbound k hk)
  · rcases hmem k hk with hk | rfl
    · exact h.apart k hk
    · exact hfresh .outbound
  · exact List.nodup_append.mpr ⟨h.distinct, List.nodup_singleton _, by
      rintro k hk l hl rfl
      rw [List.mem_singleton.mp hl] at hk
      exact hfresh .inbound hk⟩

theorem Sound.forgotten (h : s.Sound) :
    Sound
      { s with
        channel :=
          { s.channel with
            inbound := s.channel.inbound.cleanup s.roster.live s.roster.waiting } } where
  pool := h.pool
  placed := h.placed
  size := h.size
  known := fun side k hk => by
    cases side with
    | inbound => exact h.known .inbound k (List.mem_of_mem_filter hk)
    | outbound => exact h.known .outbound k hk
  outside := h.outside
  apart := fun k hk => h.apart k (List.mem_of_mem_filter hk)
  distinct := h.distinct.sublist List.filter_sublist

theorem Sound.served (h : s.Sound) {waiting : Nat → Bool} {side : Side} {found : Option Nat}
    {channel : Channel} (hs : s.channel.Served waiting side found channel) :
    Sound { s with channel } := by
  have hslots : channel.pool.slots = s.channel.pool.slots :=
    hs.pooled.elim (congrArg _) Pool.Serves.slots_eq
  have hpeers : channel.pool.slotByPeer = s.channel.pool.slotByPeer :=
    hs.pooled.elim (congrArg _) Pool.Serves.peers
  constructor
  case pool => exact h.pool.congr hslots hpeers
  case placed => exact hs.pooled.elim (fun heq => heq ▸ h.placed) fun hs => hs.placed h.placed
  case size =>
    show channel.pool.slots.size = _
    rw [hslots]
    exact h.size
  case known => exact fun side k hk => h.known side k (hs.of_held hk)
  case outside =>
    intro k hk
    show k ∉ channel.pool.connections
    rw [Pool.connections_congr hslots]
    exact h.outside k (hs.pooled.elim (fun heq => heq ▸ hk) fun hs => hs.of_released hk)
  case apart =>
    intro k hk hin
    have hk : k ∈ s.channel.held .inbound := hs.of_held hk
    have hin : k ∈ s.channel.held .outbound := hs.of_held hin
    exact h.apart k hk hin
  case distinct =>
    show channel.inbound.connections.Nodup
    rw [hs.accepted]
    exact h.distinct

theorem Sound.step (h : s.Sound) (e : Event) : (s.step e).Sound := by
  have hs := steps_step h.pool h.placed e
  generalize s.step e = s' at hs
  cases hs with
  | idle => exact h
  | seated a places i pool closed he hcursor htaken hinside hstale =>
    have hclosed := h.evolved (s.roster.evolves_closeAll closed)
    have hplaced : pool.Placed := by
      rw [Pool.Placed, hcursor, he.size]
      exact h.placed
    have hsize : (s.roster.closeAll closed).size = s.roster.size :=
      Roster.size_closeAll s.roster closed
    have hunmapped : pool.slotOf? a = none := by
      rw [he.slotOf? h.pool.distinct, Option.filter_eq_none_iff]
      simpa using hstale
    have := (hclosed.emptied he hplaced).seated (i := i) (he.size ▸ hinside)
      (by rw [he.slots, if_pos htaken]) hunmapped
    simpa only [hsize] using this
  | torn pool closed he hcursor =>
    refine (h.evolved (s.roster.evolves_closeAll closed)).emptied he ?_
    rw [Pool.Placed, hcursor]
    exact (Nat.eq_zero_or_pos _).symm
  | reclaimed places pool closed he hcursor =>
    refine (h.evolved (s.roster.evolves_closeAll closed)).emptied he ?_
    rw [Pool.Placed, hcursor, he.size]
    exact h.placed
  | forgotten => exact h.forgotten
  | accepted a => exact h.accepted a
  | opened config a => exact h.evolved (s.roster.evolves_push rfl)
  | noted a count => exact ⟨h.pool, h.placed, h.size, h.known, h.outside, h.apart, h.distinct⟩
  | happened k e => exact h.evolved (s.roster.evolves_update k _ _ (Connection.grows_step · e))
  | polled side found message roster channel _ _ hp =>
    cases hp with
    | found _ _ _ _ _ hserved _ htakes =>
      exact (h.served hserved).withRoster (Nat.le_of_eq htakes.size.symm) fun k _ => htakes.peer k
    | vain _ hserved => exact h.served hserved

theorem Sound.after (h : s.Sound) (events : List Event) : (s.after events).Sound := by
  induction events generalizing s with
  | nil => exact h
  | cons e events ih => exact ih (h.step e)

theorem sound_run (c : Config) (tracked : Bool) (events : List Event) :
    (run c tracked events).Sound :=
  (sound_init c tracked).after events

end

end Service

end Courier.Stream
