import Courier.Proofs.Stream.Delivery
import Courier.Sim.Managers

/-!
Messages to stream peers that no connection takes. A manager refuses those that are empty or
too long at once. A keepalive payload is not among them: it is queued like a message, and the
router looks for a connection to hand it to before it is dropped, and may open one for it, or
close all that are pooled.
-/

namespace Courier.Sim.World

open Courier.Stream

/-! ## What stays the same -/

/-- Connections, statistics and calls are as before. -/
structure Same (w w' : World) : Prop where
  roster : w'.roster = w.roster
  contexts : w'.contexts = w.contexts
  calls : w'.calls = w.calls

theorem Same.trans {w w' w'' : World} (h : Same w w') (g : Same w' w'') : Same w w'' :=
  ⟨g.roster.trans h.roster, g.contexts.trans h.contexts, g.calls.trans h.calls⟩

theorem same_wake (w : World) (t : Task) : Same w (w.wake t) := by
  unfold wake
  split
  · exact ⟨rfl, rfl, rfl⟩
  · split <;> exact ⟨rfl, rfl, rfl⟩

theorem same_wakeDue (w : World) (ns : List Nat) : Same w (w.wakeDue ns) := by
  unfold wakeDue
  induction ns generalizing w with
  | nil => exact ⟨rfl, rfl, rfl⟩
  | cons n ns ih =>
    rw [List.foldl_cons]
    split
    · exact (w.same_wake _).trans (ih _)
    · exact ih w

theorem same_startConnection (w : World) (link : Link) : Same w (w.startConnection link) := by
  unfold startConnection
  have hlink (w : World) (n : Nat) :
      Same w ({ w with links := w.links.push link }.wake (.connection n)) := by
    have h := same_wake { w with links := w.links.push link } (.connection n)
    exact ⟨h.roster, h.contexts, h.calls⟩
  cases link.stream with
  | none => exact hlink w _
  | some e =>
    have h := hlink (w.updateEnd e fun s => { s with reader := some w.links.size }) w.links.size
    exact ⟨h.roster, h.contexts, h.calls⟩

/-- What a search for a connection leaves behind. -/
theorem same_applyReach (w : World) (hub context : Nat) (localPort : UInt16) (closed : List Nat)
    (opened rebuilt : Bool) (roster : Roster) (channel : Stream.Channel) :
    Same { (if rebuilt then w.count context Stats.poolRebuilt else w) with roster }
      (w.applyReach hub context localPort closed opened rebuilt roster channel) := by
  unfold applyReach
  generalize (if rebuilt = true then w.count context Stats.poolRebuilt else w) = w₀
  have hwoken : Same { w₀ with roster }
      (({ w₀ with roster }.updateHub hub fun h => { h with channel }).wakeDue closed) := by
    have h := same_wakeDue ({ w₀ with roster }.updateHub hub fun h => { h with channel }) closed
    exact ⟨h.roster, h.contexts, h.calls⟩
  dsimp only
  split
  · exact hwoken.trans (same_startConnection _ _)
  · exact hwoken

theorem same_resolve (w : World) (r : Resolver) (host : String) :
    Same w (w.resolve r host).2.2 ∧ (w.resolve r host).2.2.hubs = w.hubs := by
  unfold resolve
  dsimp only
  split <;> exact ⟨⟨rfl, rfl, rfl⟩, rfl⟩

/-! ## The router -/

/-- A message that goes nowhere, or to a peer that the pool has a live connection to. -/
def IsSettled (w : World) (n : Nat) (item : Item) : Prop :=
  ∀ m h c ip, w.managers[n]? = some m → (w.resolve m.resolver item.host).1 = .ok ip →
    w.hubs[m.hub]? = some h → w.config? m.context = some c →
    h.channel.pool.Holds w.roster.live ⟨ip, item.port, 0⟩

/-- What the router leaves behind when no connection takes a message. -/
inductive Drops (w : World) (n : Nat) (item : Item) (w' : World) : Prop
  | settled (settled : w.IsSettled n item) (same : Same w w')
  | opened (open_ : ¬ w.IsSettled n item) (roster : w'.roster.size = w.roster.size + 1)
      (contexts : w'.contexts = w.contexts) (calls : w'.calls = w.calls)
  | rebuilt (open_ : ¬ w.IsSettled n item) (context : Nat) (c : Config)
      (config : w.config? context = some c)
      (contexts : w'.contexts = (w.count context Stats.poolRebuilt).contexts)
      (calls : w'.calls = w.calls)

theorem drops_applyReach {w w₂ : World} {n : Nat} {item : Item} (hsame : Same w w₂)
    {hub context : Nat} {c : Config} (hc : w.config? context = some c) {ch : Stream.Channel}
    {peer : SocketAddr} (hsettled : w.IsSettled n item ↔ ch.pool.Holds w.roster.live peer)
    (hdata : Frame.isKeepalive item.data = true) :
    let d := ch.deliver c w₂.roster peer item.data
    d.taken = false ∧ Drops w n item ((w₂.applyReach hub context item.localPort d.closed d.opened
      d.rebuilt d.roster d.channel).wakeDue d.connection.toList) := by
  rw [hsame.roster, Stream.Channel.deliver_reserved _ _ _ _ hdata]
  have hreach := Stream.Channel.reaches_reach ch c w.roster peer
  have hafter (closed : List Nat) (opened rebuilt : Bool) (roster : Roster)
      (channel : Stream.Channel) (used : List Nat) :=
    (w₂.same_applyReach hub context item.localPort closed opened rebuilt roster channel).trans
      (same_wakeDue _ used)
  have hcount : (w₂.count context Stats.poolRebuilt).contexts =
      (w.count context Stats.poolRebuilt).contexts := by
    unfold count
    rw [hsame.contexts]
  generalize ch.reach c w.roster peer = found at hreach
  cases hreach with
  | held k holds =>
    have h := hafter [] false false w.roster ch [k]
    exact ⟨rfl, .settled (hsettled.mpr holds)
      ⟨h.roster, h.contexts.trans hsame.contexts, h.calls.trans hsame.calls⟩⟩
  | opened x holds _ hopened hrebuilt hsize =>
    have h := hafter x.closed x.opened x.rebuilt x.roster x.channel [x.connection]
    exact ⟨rfl, .opened (mt hsettled.mp holds) ((congrArg Array.size h.roster).trans hsize)
      (h.contexts.trans (by rw [hrebuilt]; exact hsame.contexts))
      (h.calls.trans (by rw [hrebuilt]; exact hsame.calls))⟩
  | rebuilt x holds _ hopened hrebuilt hsize =>
    have h := hafter x.closed x.opened x.rebuilt x.roster x.channel [x.connection]
    exact ⟨rfl, .rebuilt (mt hsettled.mp holds) context c hc
      (h.contexts.trans (by rw [hrebuilt]; exact hcount))
      (h.calls.trans (by rw [hrebuilt]; exact hsame.calls))⟩
  | lost holds =>
    have h := hafter [] false true w.roster ch []
    exact ⟨rfl, .rebuilt (mt hsettled.mp holds) context c hc (h.contexts.trans hcount)
      (h.calls.trans hsame.calls)⟩

theorem drops_deliverItem (w : World) (n : Nat) {item : Item}
    (hdata : Frame.isKeepalive item.data = true) :
    (w.deliverItem n item).1 = false ∧ Drops w n item (w.deliverItem n item).2 := by
  unfold deliverItem
  cases hm : w.managers[n]? with
  | none =>
    refine ⟨rfl, .settled (fun m h c ip hm' => ?_) ⟨rfl, rfl, rfl⟩⟩
    cases hm.symm.trans hm'
  | some m =>
    dsimp only
    obtain ⟨hsame, hhubs⟩ := w.same_resolve m.resolver item.host
    generalize hres : w.resolve m.resolver item.host = res at hsame hhubs
    obtain ⟨result, resolver, w₁⟩ := res
    dsimp only at hsame hhubs ⊢
    have hsame₂ : Same w (w₁.updateManager n fun m => { m with resolver }) :=
      ⟨hsame.roster, hsame.contexts, hsame.calls⟩
    have hhubs₂ : (w₁.updateManager n fun m => { m with resolver }).hubs = w.hubs := hhubs
    generalize (w₁.updateManager n fun m => { m with resolver }) = w₂ at hsame₂ hhubs₂
    have hconfig : w₂.config? m.context = w.config? m.context := by
      unfold config?
      rw [hsame₂.contexts]
    split
    · next ip h c hh hc =>
      rw [hhubs₂] at hh
      rw [hconfig] at hc
      have hsettled : w.IsSettled n item ↔
          h.channel.pool.Holds w.roster.live ⟨ip, item.port, 0⟩ := by
        refine ⟨fun hs => hs m h c ip hm (by rw [hres]) hh hc,
          fun hs m' h' c' ip' hm' hip hh' _ => ?_⟩
        cases hm.symm.trans hm'
        rw [hres] at hip
        cases hip
        cases hh.symm.trans hh'
        exact hs
      refine drops_applyReach hsame₂ hc hsettled hdata
    · next hnot =>
      refine ⟨rfl, .settled (fun m' h c ip hm' hip hh hc => ?_) hsame₂⟩
      cases hm.symm.trans hm'
      rw [hres] at hip
      exact (hnot ip h c hip (hhubs₂ ▸ hh) (hconfig.trans hc)).elim

theorem count_poolRebuilt_ne {w : World} {context : Nat} {c : Config}
    (hc : w.config? context = some c) :
    (w.count context Stats.poolRebuilt).contexts ≠ w.contexts := by
  intro heq
  obtain ⟨x, hx, _⟩ := Option.map_eq_some_iff.mp hc
  have hrebuilds : ((w.count context Stats.poolRebuilt).contexts[context]?).map
      (·.stats.poolRebuilds) = (w.contexts[context]?).map (·.stats.poolRebuilds) := by rw [heq]
  simp [count, Array.getElem?_modify, hx, Stats.poolRebuilt] at hrebuilds

theorem Drops.calls {w w' : World} {n : Nat} {item : Item} (h : Drops w n item w') :
    w'.calls = w.calls := by
  cases h with
  | settled _ same => exact same.calls
  | opened _ _ _ calls => exact calls
  | rebuilt _ _ _ _ _ calls => exact calls

/-- The router opens, closes and counts something for such a message unless the pool has a
live connection to its peer. -/
theorem Drops.untouched_iff {w w' : World} {n : Nat} {item : Item} (h : Drops w n item w') :
    w'.roster = w.roster ∧ w'.contexts = w.contexts ↔ w.IsSettled n item := by
  cases h with
  | settled settled same => exact iff_of_true ⟨same.roster, same.contexts⟩ settled
  | opened open_ roster =>
    refine iff_of_false (fun hsame => ?_) open_
    rw [hsame.1] at roster
    omega
  | rebuilt open_ context c config contexts =>
    refine iff_of_false (fun hsame => ?_) open_
    exact count_poolRebuilt_ne config (contexts.symm.trans hsame.2)

/-- A call that waits for such a message learns that it was not taken. -/
theorem calls_routeItem (w : World) (n : Nat) {item : Item} {call : Nat}
    (hdata : Frame.isKeepalive item.data = true) (hcaller : item.caller = some call) :
    (w.routeItem n item).calls =
      w.calls.modify call fun k => { k with delivery := some false } := by
  obtain ⟨htaken, hdrops⟩ := w.drops_deliverItem n hdata
  have hcalls : (w.deliverItem n item).2.calls = w.calls := hdrops.calls
  unfold routeItem
  generalize w.deliverItem n item = result at htaken hcalls
  obtain ⟨taken, w'⟩ := result
  rw [hcaller]
  dsimp only at htaken hcalls ⊢
  rw [(same_wake _ _).calls, updateCall, htaken, hcalls]

/-! ## The sender -/

/-- A keepalive payload that a manager takes for a message. -/
structure Passes (m : Manager) (c : Config) (a : Address) (data : Bytes) (localPort : UInt16)
    (wait : Option Duration) : Prop where
  reserved : Frame.isKeepalive data = true
  fits : data.length ≤ c.maxFrameSize
  routing : m.routing = true
  localPort : a.localPort = .ok localPort
  wait : a.waitLimit c.defaultBlockTimeout = .ok wait

/-- What a manager puts into the queue of its router. -/
def queued (w : World) (a : Address) (data : Bytes) (localPort : UInt16)
    (wait : Option Duration) : Item where
  host := a.host
  port := a.port
  localPort := localPort
  data := data
  caller := wait.map fun _ => w.calls.size

/-- How far the send of a message is that was queued. -/
def begun (w : World) : Option Duration → Begun
  | none => .finished true
  | some _ => .waiting w.calls.size

theorem managers_wake (w : World) (t : Task) : (w.wake t).managers = w.managers := by
  unfold wake
  split
  · rfl
  · split <;> rfl

section

variable {c : Config} {data : Bytes} {m : Manager} {dest : String} {a : Address}

theorem beginSend_eq (w : World) (n : Nat) (robust : Bool) (hparse : Address.parse dest [] = .ok a)
    (htcp : a.protocol = .tcp) : w.beginSend n m c dest data robust =
      match a.waitLimit c.defaultBlockTimeout with
      | .error _ => (.finished false, w)
      | .ok wait => w.sendStream n m c a data wait := by
  unfold beginSend
  rw [hparse]
  dsimp only
  rewrite [htcp]
  rfl

theorem beginSend_passes (w : World) (n : Nat) (robust : Bool)
    (hparse : Address.parse dest [] = .ok a) (htcp : a.protocol = .tcp) {localPort : UInt16}
    {wait : Option Duration} (h : Passes m c a data localPort wait) :
    (w.beginSend n m c dest data robust).1 = w.begun wait ∧
      (w.beginSend n m c dest data robust).2.managers =
        w.managers.modify n fun m =>
          { m with queue := m.queue ++ [w.queued a data localPort wait] } := by
  have hroutable : isRoutable c data = true := by
    have hne : data ≠ [] := by
      rintro rfl
      cases h.reserved
    simp [isRoutable, hne, h.fits]
  rw [w.beginSend_eq n robust hparse htcp, h.wait]
  dsimp only
  unfold sendStream
  rw [h.localPort]
  dsimp only
  rw [hroutable, h.routing]
  cases wait with
  | none => exact ⟨rfl, managers_wake _ _⟩
  | some wait => exact ⟨rfl, managers_wake _ _⟩

theorem beginSend_refused (w : World) (n : Nat) (robust : Bool) (hrefused : Refused c data)
    (hparse : Address.parse dest [] = .ok a) (htcp : a.protocol = .tcp)
    (h : ∀ localPort wait, ¬ Passes m c a data localPort wait) :
    w.beginSend n m c dest data robust = (.finished false, w) := by
  rw [w.beginSend_eq n robust hparse htcp]
  split
  · rfl
  · next wait hwait =>
    unfold sendStream
    split
    · rfl
    · next localPort hport =>
      rw [if_pos]
      -- a routable payload that is refused is a keepalive payload, and would pass
      by_contra hnot
      obtain ⟨hroutable, hrouting⟩ : isRoutable c data = true ∧ m.routing = true := by
        simpa using hnot
      obtain ⟨hne, hfits⟩ : data ≠ [] ∧ data.length ≤ c.maxFrameSize := by
        simpa [isRoutable] using hroutable
      have hreserved : Frame.isKeepalive data = true := by
        rcases refused_iff.mp hrefused with hempty | hkeepalive | hlong
        · exact absurd hempty hne
        · exact hkeepalive
        · omega
      exact h localPort wait ⟨hreserved, hfits, hrouting, hport, hwait⟩

/-- What a manager makes of a message that no stream connection takes. It is refused and
nothing happens, unless it is a keepalive payload within the size limit that a running router
may have: that is queued, and whoever does not wait for it is told that it was sent. The
router hands it to no connection, but it opens one, or closes all that are pooled, unless the
pool has a live one to the peer. -/
theorem refused_send (w : World) (n : Nat) (robust : Bool) (hrefused : Refused c data)
    (hparse : Address.parse dest [] = .ok a) (htcp : a.protocol = .tcp) :
    (w.beginSend n m c dest data robust = (.finished false, w) ↔
      ∀ localPort wait, ¬ Passes m c a data localPort wait) ∧
    ∀ localPort wait, Passes m c a data localPort wait →
      (w.beginSend n m c dest data robust).1 = w.begun wait ∧
        (w.beginSend n m c dest data robust).2.managers =
          w.managers.modify n (fun m =>
            { m with queue := m.queue ++ [w.queued a data localPort wait] }) ∧
        ∀ (w' : World) (item : Item), item.data = data →
          (w'.deliverItem n item).1 = false ∧
          ((w'.deliverItem n item).2.roster = w'.roster ∧
              (w'.deliverItem n item).2.contexts = w'.contexts ↔ w'.IsSettled n item) ∧
          ∀ call, item.caller = some call → (w'.routeItem n item).calls =
            w'.calls.modify call fun k => { k with delivery := some false } := by
  refine ⟨⟨fun heq localPort wait hpasses => ?_, w.beginSend_refused n robust hrefused hparse htcp⟩,
    fun localPort wait hpasses => ?_⟩
  · have hbegun := (w.beginSend_passes n robust hparse htcp hpasses).1
    rw [heq] at hbegun
    cases wait <;> cases hbegun
  · obtain ⟨hbegun, hqueued⟩ := w.beginSend_passes n robust hparse htcp hpasses
    refine ⟨hbegun, hqueued, fun w' item hitem => ?_⟩
    have hreserved : Frame.isKeepalive item.data = true := hitem ▸ hpasses.reserved
    obtain ⟨htaken, hdrops⟩ := w'.drops_deliverItem n hreserved
    exact ⟨htaken, hdrops.untouched_iff, fun call => w'.calls_routeItem n hreserved⟩

end

/-- The defaults, with room for one pooled connection. -/
def narrow : Config := { poolSize := 1 }

def someManager : Manager := { context := 0, socket := 0, hub := 0 }

def somewhere : Address := ⟨.tcp, "127.0.0.1", 9000, ⟨[]⟩⟩

/-- A pool that is full, with a live connection to another peer. -/
def busy : World where
  contexts := #[{ config := narrow }]
  roster := #[.accept narrow ⟨.v4 127 0 0 1, 9001, 0⟩]
  links := #[{ context := 0 }]
  hubs := #[{
    context := 0
    channel := { pool := { slots := #[some 0], slotByPeer := [(⟨.v4 127 0 0 1, 9001, 0⟩, 0)] } }
    nextTick := 0 }]
  managers := #[someManager]

theorem refused_send_ping :
    Refused narrow Frame.ping ∧ Address.parse "tcp://127.0.0.1:9000" [] = .ok somewhere ∧
      (busy.beginSend 0 someManager narrow "tcp://127.0.0.1:9000" Frame.ping true).1 =
        .finished true ∧
      (busy.deliverItem 0 (busy.queued somewhere Frame.ping 0 none)).1 = false := by
  have hrefused : Refused narrow Frame.ping := refused_iff.mpr (Or.inr (Or.inl rfl))
  have hparse : Address.parse "tcp://127.0.0.1:9000" [] = .ok somewhere := by rfl
  have hpasses : Passes someManager narrow somewhere Frame.ping 0 none :=
    ⟨rfl, by decide, rfl, rfl, rfl⟩
  obtain ⟨hbegun, _, hrouted⟩ := (refused_send busy 0 true hrefused hparse rfl).2 0 none hpasses
  exact ⟨hrefused, hparse, hbegun, (hrouted busy _ rfl).1⟩

/-- A ping to one peer is accepted; the router closes the connection to another peer for it,
rebuilds the pool, and opens a connection that the ping is not sent on. -/
theorem accepted_ping :
    narrow.validate = .ok () ∧ Refused narrow Frame.ping ∧
      (busy.beginSend 0 someManager narrow "tcp://127.0.0.1:9000" Frame.ping true).1 =
        .finished true ∧
      busy.roster.size = 1 ∧ busy.roster.live 0 = true ∧
      let w := (busy.beginSend 0 someManager narrow "tcp://127.0.0.1:9000" Frame.ping true).2.run
        (.router 0)
      w.roster.size = 2 ∧ w.roster.live 0 = false ∧
        w.contexts.map (·.stats.poolRebuilds) = #[1] := by
  refine ⟨rfl, refused_iff.mpr (Or.inr (Or.inl rfl)), rfl, rfl, rfl, ?_⟩
  decide +kernel

end Courier.Sim.World
