import Courier.Proofs.Sim.Timers
import Courier.Proofs.Stream.Custody
import Courier.Sim.Streams
import Mathlib.Logic.Relation

/-!
The hub of a world as a channel in service. What it does on its own and what it is asked for
are runs of events of its channel: ticks of the keepalive timer, however many are due, polls,
deliveries, connections that are accepted or looked for, and teardowns. Main statement: however
these follow each other, and whatever happens to the connections meanwhile, the channel of the
hub is in order, and nothing that it received gets lost.
-/

namespace Courier.Stream.Service

/-! ## Messages that are handed over -/

section

variable (s : Service) (peer : SocketAddr) (data : Bytes)

theorem after_send (k : Nat) : s.after [.happen k (.send data)] =
    { s with roster := (s.roster.send k data).2 } := by
  rw [Roster.send_eq_update]
  rfl

theorem exists_after_deliverPooled : ∃ events, s.after events =
    { s with
      roster := (s.channel.deliverPooled s.config s.roster peer data).roster
      channel := (s.channel.deliverPooled s.config s.roster peer data).channel } := by
  unfold Channel.deliverPooled
  split
  · exact ⟨[], rfl⟩
  · next x hx =>
    refine ⟨s.searches peer ++ [.happen x.connection (.send data)], ?_⟩
    rw [after_append, after_searches s hx, after_send]
    rfl

/-- A message is handed to a connection that is there, or to one that is looked for. -/
theorem exists_after_deliver : ∃ events, s.after events =
    { s with
      roster := (s.channel.deliver s.config s.roster peer data).roster
      channel := (s.channel.deliver s.config s.roster peer data).channel } := by
  unfold Channel.deliver
  split
  · exact s.exists_after_deliverPooled peer data
  · next n _ =>
    have hsent := s.after_send data n
    generalize s.roster.send n data = sent at hsent
    obtain ⟨taken, roster⟩ := sent
    cases taken with
    | true => exact ⟨_, hsent⟩
    | false =>
      obtain ⟨events, hevents⟩ := exists_after_deliverPooled { s with roster } peer data
      refine ⟨[.happen n (.send data)] ++ events, ?_⟩
      rw [after_append, hsent]
      exact hevents

end

end Courier.Stream.Service

namespace Courier.Sim.World

open Courier.Stream
open Relation (ReflTransGen)

/-- The channel of a hub, with all connections of the world. -/
def service? (w : World) (n : Nat) : Option Service :=
  (w.hubs[n]?).bind fun h => (w.config? h.context).map fun c => ⟨c, w.roster, h.channel⟩

/-- What becomes of a hub is what its channel becomes by some events. -/
def Continues (n : Nat) (w w' : World) : Prop :=
  ∀ s, w.service? n = some s → ∃ events, w'.service? n = some (s.after events)

section

variable {w w' w'' : World} {n : Nat}

theorem service?_eq_some_iff {s : Service} : w.service? n = some s ↔
    ∃ h, w.hubs[n]? = some h ∧ w.config? h.context = some s.config ∧ w.roster = s.roster ∧
      h.channel = s.channel := by
  constructor
  · intro hs
    obtain ⟨h, hh, hs⟩ := Option.bind_eq_some_iff.mp hs
    obtain ⟨c, hc, rfl⟩ := Option.map_eq_some_iff.mp hs
    exact ⟨h, hh, hc, rfl, rfl⟩
  · obtain ⟨c, roster, channel⟩ := s
    rintro ⟨h, hh, hc, rfl, rfl⟩
    rw [service?, hh, Option.bind_some, hc]
    rfl

theorem continues_of_service (h : w'.service? n = w.service? n) : Continues n w w' :=
  fun _ hs => ⟨[], h.trans hs⟩

/-- What a hub does is found from the hub, its settings and the connections. -/
theorem continues_of_hub (h : ∀ hub c, w.hubs[n]? = some hub → w.config? hub.context = some c →
    ∃ events, w'.service? n = some (Service.after ⟨c, w.roster, hub.channel⟩ events)) :
    Continues n w w' := by
  rintro ⟨c, roster, channel⟩ hs
  obtain ⟨hub, hh, hc, rfl, rfl⟩ := service?_eq_some_iff.mp hs
  exact h hub c hh hc

theorem continues_of_found {h : Hub} {c : Config} (hh : w.hubs[n]? = some h)
    (hc : w.config? h.context = some c) (hevents : ∃ events, w'.service? n =
      some (Service.after ⟨c, w.roster, h.channel⟩ events)) : Continues n w w' := by
  refine continues_of_hub fun h' c' hh' hc' => ?_
  obtain rfl : h = h' := Option.some.inj (hh.symm.trans hh')
  obtain rfl : c = c' := Option.some.inj (hc.symm.trans hc')
  exact hevents

theorem Continues.trans (h : Continues n w w') (h' : Continues n w' w'') : Continues n w w'' := by
  intro s hs
  obtain ⟨events, hs'⟩ := h s hs
  obtain ⟨events', hs''⟩ := h' _ hs'
  exact ⟨events ++ events', by rw [hs'', Service.after_append]⟩

theorem service?_wakeDue (w : World) (n : Nat) (ns : List Nat) :
    (w.wakeDue ns).service? n = w.service? n := by
  obtain ⟨ready, hready⟩ := w.wakeDue_eq ns
  rw [hready]
  rfl

theorem service?_congr (hhubs : w'.hubs = w.hubs) (hcontexts : w'.contexts = w.contexts)
    (hroster : w'.roster = w.roster) : w'.service? n = w.service? n := by
  unfold service? config?
  rw [hhubs, hcontexts, hroster]

theorem hubs_startConnection (w : World) (link : Link) :
    (w.startConnection link).hubs = w.hubs := by
  have hwake (w : World) (t : Task) : (w.wake t).hubs = w.hubs := by
    obtain ⟨ready, hready⟩ := w.wake_eq t
    rw [hready]
  unfold startConnection
  rw [hwake]
  cases link.stream <;> rfl

theorem service?_updateHub {h : Hub} {c : Config} {f : Hub → Hub} (hh : w.hubs[n]? = some h)
    (hf : (f h).context = h.context) (hc : w.config? h.context = some c) :
    (w.updateHub n f).service? n = some ⟨c, w.roster, (f h).channel⟩ := by
  refine service?_eq_some_iff.mpr ⟨f h, ?_, hf ▸ hc, rfl, rfl⟩
  show (w.hubs.modify n f)[n]? = _
  rw [Array.getElem?_modify, if_pos rfl, hh]
  rfl

/-- Another state of its channel is put in place, with connections that may be others. -/
theorem service?_put {h : Hub} {c : Config} {channel : Stream.Channel} (hh : w.hubs[n]? = some h)
    (hhubs : w'.hubs = w.hubs.modify n fun h => { h with channel })
    (hc : w'.config? h.context = some c) : w'.service? n = some ⟨c, w'.roster, channel⟩ := by
  refine service?_eq_some_iff.mpr ⟨{ h with channel }, ?_, hc, rfl, rfl⟩
  rw [hhubs, Array.getElem?_modify, if_pos rfl, hh]
  rfl

/-! ## What a hub does -/

variable (w n)

theorem continues_tickHub : Continues n w (w.tickHub n) := by
  refine continues_of_hub fun h c hh hc =>
    ⟨Service.ticks ⟨c, w.roster, h.channel⟩ c.keepaliveIdleTicks, ?_⟩
  unfold tickHub
  rw [hh]
  dsimp only
  rw [hc]
  dsimp only
  rw [service?_wakeDue, Service.after_ticks]
  exact service?_put hh rfl hc

theorem continues_runKeepaliveTimer : Continues n w (w.runKeepaliveTimer n) := by
  refine holds_runKeepaliveTimer (P := Continues n w) (continues_of_service rfl)
    (fun w' h => h.trans (w'.continues_tickHub n)) fun w' f timers hf hw => hw.trans ?_
  refine continues_of_hub fun h c hh hc => ⟨[], ?_⟩
  show (w'.updateHub n f).service? n = _
  rw [service?_updateHub hh (hf h).1 hc, (hf h).2]
  rfl

theorem continues_pollHub (side : Side) :
    Continues n w (w.pollHub n fun ch r => ch.poll r side).2 := by
  refine continues_of_hub fun h c hh hc => ⟨[.poll side], ?_⟩
  unfold pollHub
  rw [hh]
  exact service?_put hh rfl hc

theorem continues_teardownHub {h : Hub} (hh : w.hubs[n]? = some h) :
    Continues n w (w.teardownHub n h) := by
  refine continues_of_hub fun h' c hh' hc => ⟨[.teardown], ?_⟩
  obtain rfl : h = h' := Option.some.inj (hh.symm.trans hh')
  unfold teardownHub
  dsimp only
  rw [service?_wakeDue]
  exact service?_put hh rfl hc

theorem config?_count (context m : Nat) (f : Stats → Stats) :
    (w.count context f).config? m = w.config? m := by
  refine map_getElem?_modify_of_eq w.contexts context (fun c => ?_) m
  rfl

/-- What a search for a connection, or a delivery, comes to is put into the world. -/
theorem continues_applyReach {h : Hub} (hh : w.hubs[n]? = some h) {c : Config}
    (hc : w.config? h.context = some c) (localPort : UInt16) (closed : List Nat)
    (opened rebuilt : Bool) {roster : Roster} {channel : Stream.Channel}
    (hafter : ∃ events, Service.after ⟨c, w.roster, h.channel⟩ events = ⟨c, roster, channel⟩) :
    Continues n w (w.applyReach n h.context localPort closed opened rebuilt roster channel) := by
  obtain ⟨events, hevents⟩ := hafter
  refine continues_of_found hh hc ⟨events, ?_⟩
  obtain ⟨links, ready, happly⟩ :=
    w.applyReach_eq n h.context localPort closed opened rebuilt roster channel
  rw [happly, hevents]
  cases rebuilt with
  | false => exact service?_put hh rfl hc
  | true => exact service?_put hh rfl ((w.config?_count _ _ _).trans hc)

/-- The router of a manager hands a message to the hub of the manager. -/
theorem continues_deliverItem {m : Nat} {manager : Manager} (hm : w.managers[m]? = some manager)
    (hhub : manager.hub = n)
    (hcontext : ∀ h, w.hubs[n]? = some h → h.context = manager.context) (item : Item) :
    Continues n w (w.deliverItem m item).2 := by
  subst hhub
  unfold deliverItem
  rw [hm]
  have hsame := w.same_resolve manager.resolver item.host
  dsimp only
  generalize w.resolve manager.resolver item.host = resolved at hsame ⊢
  obtain ⟨result, resolver, w₁⟩ := resolved
  obtain ⟨hw₁, hhubs⟩ := hsame
  have hservice : (w₁.updateManager m fun m => { m with resolver }).service? manager.hub =
      w.service? manager.hub := service?_congr hhubs hw₁.contexts hw₁.roster
  refine (continues_of_service hservice).trans ?_
  dsimp only
  split
  · next h c hh hc =>
    have hh' : w.hubs[manager.hub]? = some h := hhubs ▸ hh
    rw [← hcontext h hh'] at hc ⊢
    refine (continues_applyReach _ _ hh hc _ _ _ _ ?_).trans
      (continues_of_service (service?_wakeDue _ _ _))
    exact Service.exists_after_deliver ⟨c, _, h.channel⟩ _ _
  · exact continues_of_service rfl

theorem continues_acceptConnection {h : Hub} (hh : w.hubs[n]? = some h) {c : Config}
    (hc : w.config? h.context = some c) (e : Nat) (peer : SocketAddr) :
    Continues n w (w.acceptConnection n h c e peer) := by
  let link : Link :=
    { context := h.context
      stream := some e
      tracker := if h.channel.inbound.recent.isSome then some n else none }
  let joined := { w with roster := w.roster.push (.accept c peer) }
  let add (h : Hub) : Hub :=
    { h with channel := { h.channel with inbound := h.channel.inbound.add w.roster.size } }
  have hsame := joined.same_startConnection link
  have hhubs : (w.acceptConnection n h c e peer).hubs = (joined.updateHub n add).hubs :=
    congrArg (Array.modify · n add) (joined.hubs_startConnection link)
  refine continues_of_found hh hc ⟨[.accept peer], ?_⟩
  calc (w.acceptConnection n h c e peer).service? n
      = (joined.updateHub n add).service? n :=
        service?_congr hhubs hsame.contexts hsame.roster
    _ = some ⟨c, joined.roster, (add h).channel⟩ := service?_updateHub hh rfl hc

/-- A connection is opened that is none of the hub. -/
theorem continues_startConnection (c : Config) (peer : SocketAddr) (link : Link) :
    Continues n w ({ w with roster := w.roster.push (.dial c peer) }.startConnection link) := by
  let joined := { w with roster := w.roster.push (.dial c peer) }
  have hsame := joined.same_startConnection link
  refine continues_of_hub fun h c' hh hc => ⟨[.elsewhere c peer], ?_⟩
  calc (joined.startConnection link).service? n
      = joined.service? n :=
        service?_congr (joined.hubs_startConnection link) hsame.contexts hsame.roster
    _ = some ⟨c', joined.roster, h.channel⟩ :=
        service?_eq_some_iff.mpr ⟨h, hh, hc, rfl, rfl⟩

/-- Activity of a peer is noted. -/
theorem continues_noteActivity (peer : SocketAddr) (count : Nat) :
    Continues n w (w.updateHub n fun h => { h with
      channel := { h.channel with inbound := h.channel.inbound.noteActivity peer count } }) :=
  continues_of_hub fun _ _ hh hc => ⟨[.note peer count], service?_updateHub hh rfl hc⟩

theorem continues_updateConnection (k : Nat) (e : Connection.Event) :
    Continues n w (w.updateConnection k (·.step e)) :=
  continues_of_hub fun h _ hh hc =>
    ⟨[.happen k e], service?_eq_some_iff.mpr ⟨h, hh, hc, rfl, rfl⟩⟩

/-! ## All that it does -/

/-- What can become of a world, as far as a hub is concerned. -/
inductive Serves (n : Nat) (w : World) : World → Prop
  /-- the keepalive timer goes off, and so many ticks may be due at once -/
  | timed : Serves n w (w.runKeepaliveTimer n)
  | ticked : Serves n w (w.tickHub n)
  | polled (side : Side) : Serves n w (w.pollHub n fun ch r => ch.poll r side).2
  | torn (h : Hub) (found : w.hubs[n]? = some h) : Serves n w (w.teardownHub n h)
  /-- a pooled connection to a peer is looked for -/
  | sought (h : Hub) (found : w.hubs[n]? = some h) (c : Config)
      (config : w.config? h.context = some c) (peer : SocketAddr) (x : Reached)
      (reached : h.channel.reach c w.roster peer = some x) (localPort : UInt16) :
      Serves n w (w.applyReach n h.context localPort x.closed x.opened x.rebuilt x.roster
        x.channel)
  /-- the router of a manager hands a message to the hub -/
  | delivered (m : Nat) (manager : Manager) (found : w.managers[m]? = some manager)
      (hub : manager.hub = n)
      (context : ∀ h, w.hubs[n]? = some h → h.context = manager.context) (item : Item) :
      Serves n w (w.deliverItem m item).2
  | accepted (h : Hub) (found : w.hubs[n]? = some h) (c : Config)
      (config : w.config? h.context = some c) (e : Nat) (peer : SocketAddr) :
      Serves n w (w.acceptConnection n h c e peer)
  /-- activity of a peer is noted, after a piece that may have brought messages -/
  | noted (peer : SocketAddr) (count : Nat) : Serves n w (w.updateHub n fun h => { h with
      channel := { h.channel with inbound := h.channel.inbound.noteActivity peer count } })
  /-- a connection is opened that is none of the hub -/
  | opened (c : Config) (peer : SocketAddr) (link : Link) :
      Serves n w ({ w with roster := w.roster.push (.dial c peer) }.startConnection link)
  /-- something happens to one of all connections -/
  | happened (k : Nat) (e : Connection.Event) : Serves n w (w.updateConnection k (·.step e))
  | elsewhere (w' : World) (same : w'.service? n = w.service? n) : Serves n w w'

variable {w n}

theorem Serves.continues (h : Serves n w w') : Continues n w w' := by
  cases h with
  | timed => exact w.continues_runKeepaliveTimer n
  | ticked => exact w.continues_tickHub n
  | polled side => exact w.continues_pollHub n side
  | torn h found => exact w.continues_teardownHub n found
  | sought h found c config peer x reached localPort =>
    exact w.continues_applyReach n found config localPort _ _ _
      ⟨_, Service.after_searches _ reached⟩
  | delivered m manager found hub context item =>
    exact w.continues_deliverItem n found hub context item
  | accepted h found c config e peer => exact w.continues_acceptConnection n found config e peer
  | noted peer count => exact w.continues_noteActivity n peer count
  | opened c peer link => exact w.continues_startConnection n c peer link
  | happened k e => exact w.continues_updateConnection n k e
  | elsewhere w' same => exact continues_of_service same

theorem continues_of_serves (h : ReflTransGen (Serves n) w w') : Continues n w w' := by
  induction h with
  | refl => exact continues_of_service rfl
  | tail _ hlast ih => exact ih.trans hlast.continues

/-- A hub whose channel is in a state that a run leads to goes on like a run: everything stays
in its place, and what was received before or arrives later is returned to whoever polls, once
and in order, or is still there. -/
theorem conserves_of_serves {c : Config} {tracked : Bool} {before : List Service.Event}
    (hs : w.service? n = some (Service.run c tracked before))
    (h : ReflTransGen (Serves n) w w') :
    ∃ later, w'.service? n = some (Service.run c tracked (before ++ later)) ∧
      (Service.run c tracked (before ++ later)).Sound ∧
      ∀ side, (Service.run c tracked before).Conserves side later := by
  obtain ⟨later, hlater⟩ := continues_of_serves h _ hs
  rw [Service.run, ← Service.after_append] at hlater
  exact ⟨later, hlater, Service.sound_run c tracked _, fun side =>
    (Service.sound_run c tracked before).conserves side later⟩

end

end Courier.Sim.World
