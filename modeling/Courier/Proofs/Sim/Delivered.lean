import Courier.Proofs.Sim.Refused
import Courier.Proofs.Stream.Handing

/-!
Messages that a router hands to stream connections. Main statement: whoever waits for such a
message learns whether it was queued, and it is queued once at most, on a connection that the
peer opened or else on the one that the pool keeps for the peer.
-/

namespace Courier.Sim.World

open Courier.Stream

/-! ## What a delivery leaves behind -/

/-- Waking changes the order of the tasks, and nothing else. -/
theorem wake_eq (w : World) (t : Task) : ∃ ready, w.wake t = { w with ready } := by
  unfold wake
  split
  · exact ⟨w.ready, rfl⟩
  · split <;> exact ⟨_, rfl⟩

theorem wakeDue_eq (w : World) (ns : List Nat) : ∃ ready, w.wakeDue ns = { w with ready } := by
  unfold wakeDue
  induction ns generalizing w with
  | nil => exact ⟨w.ready, rfl⟩
  | cons n ns ih =>
    rw [List.foldl_cons]
    split
    · obtain ⟨ready, hready⟩ := w.wake_eq (.connection n)
      rw [hready]
      exact ih _
    · exact ih w

/-- A connection that this side opens has no stream yet. -/
theorem startConnection_eq (w : World) (link : Link) (h : link.stream = none) :
    ∃ ready, w.startConnection link = { w with links := w.links.push link, ready } := by
  obtain ⟨ready, hready⟩ :=
    wake_eq { w with links := w.links.push link } (.connection w.links.size)
  unfold startConnection
  rw [h]
  exact ⟨ready, hready⟩

theorem applyReach_eq (w : World) (hub context : Nat) (localPort : UInt16) (closed : List Nat)
    (opened rebuilt : Bool) (roster : Roster) (channel : Stream.Channel) :
    ∃ links ready, w.applyReach hub context localPort closed opened rebuilt roster channel =
      { (if rebuilt then w.count context Stats.poolRebuilt else w).updateHub hub
          (fun h => { h with channel }) with roster, links, ready } := by
  unfold applyReach
  dsimp only
  generalize (if rebuilt = true then w.count context Stats.poolRebuilt else w) = w₀
  obtain ⟨ready, hready⟩ :=
    wakeDue_eq ({ w₀ with roster }.updateHub hub fun h => { h with channel }) closed
  rw [hready]
  split
  · obtain ⟨ready', hstart⟩ := startConnection_eq
      { { w₀ with roster }.updateHub hub (fun h => { h with channel }) with ready }
      { context, localPort } rfl
    exact ⟨_, ready', hstart⟩
  · exact ⟨w₀.links, ready, rfl⟩

/-- The connections, channels and statistics of the world after a delivery. -/
structure Carries (w w' : World) (hub : Nat) (d : Delivery) : Prop where
  roster : w'.roster = d.roster
  hubs : w'.hubs = w.hubs.modify hub fun h => { h with channel := d.channel }
  contexts : d.rebuilt = false → w'.contexts = w.contexts

theorem carries_applyReach (w : World) (hub context : Nat) (localPort : UInt16) (d : Delivery) :
    Carries w ((w.applyReach hub context localPort d.closed d.opened d.rebuilt d.roster
      d.channel).wakeDue d.connection.toList) hub d := by
  obtain ⟨links, ready, happly⟩ :=
    w.applyReach_eq hub context localPort d.closed d.opened d.rebuilt d.roster d.channel
  obtain ⟨ready', hready⟩ := wakeDue_eq
    (w.applyReach hub context localPort d.closed d.opened d.rebuilt d.roster d.channel)
    d.connection.toList
  rw [hready, happly]
  refine ⟨rfl, ?_, fun hrebuilt => ?_⟩
  · cases d.rebuilt <;> rfl
  · rw [hrebuilt]
    rfl

/-! ## One message -/

section

variable {w : World} {n : Nat} {item : Item} {m : Manager} {h : Hub} {c : Config} {ip : Ip}

/-- Whatever state its connections are in, a hub has a message for a resolved host queued on
one connection and says so, or on none and says so. The earliest live connection that the peer
opened is used if it takes the message, and the pool is left alone; otherwise it is the
connection that the pool keeps for the peer. -/
theorem hands_deliverItem (hm : w.managers[n]? = some m)
    (hip : (w.resolve m.resolver item.host).1 = .ok ip) (hh : w.hubs[m.hub]? = some h)
    (hc : w.config? m.context = some c) :
    ∃ d, h.channel.Hands w.roster ⟨ip, item.port, 0⟩ item.data d ∧
      (w.deliverItem n item).1 = d.taken ∧ Carries w (w.deliverItem n item).2 m.hub d := by
  refine ⟨_, h.channel.hands_deliver c w.roster ⟨ip, item.port, 0⟩ item.data, ?_⟩
  obtain ⟨hsame, hhubs⟩ := w.same_resolve m.resolver item.host
  unfold deliverItem
  rw [hm]
  dsimp only
  generalize w.resolve m.resolver item.host = res at hip hsame hhubs ⊢
  obtain ⟨result, resolver, w₁⟩ := res
  obtain rfl : result = .ok ip := hip
  dsimp only at hsame hhubs ⊢
  have hh₁ : (w₁.updateManager n fun m => { m with resolver }).hubs[m.hub]? = some h := by
    rw [← hh, ← hhubs]
    rfl
  have hc₁ : (w₁.updateManager n fun m => { m with resolver }).config? m.context = some c := by
    rw [← hc]
    exact congrArg (fun contexts => (contexts[m.context]?).map (·.config)) hsame.contexts
  rw [hh₁, hc₁]
  dsimp only
  have hroster : (w₁.updateManager n fun m => { m with resolver }).roster = w.roster := hsame.roster
  rw [hroster]
  refine ⟨rfl, ?_⟩
  have hcarries := carries_applyReach (w₁.updateManager n fun m => { m with resolver }) m.hub
    m.context item.localPort (h.channel.deliver c w.roster ⟨ip, item.port, 0⟩ item.data)
  exact ⟨hcarries.roster, hcarries.hubs.trans (by rw [← hhubs]; rfl),
    fun hrebuilt => (hcarries.contexts hrebuilt).trans hsame.contexts⟩

end

/-- Three connections of one peer, the first of them closed. -/
def threefold : World where
  contexts := #[{ config := narrow }]
  roster := #[(Connection.accept narrow ⟨.v4 10 0 0 1, 4000, 0⟩).close,
    .accept narrow ⟨.v4 10 0 0 1, 4000, 0⟩, .accept narrow ⟨.v4 10 0 0 1, 4000, 0⟩]
  hubs := #[{
    context := 0
    channel := { pool := .empty 1, inbound := { connections := [0, 1, 2] } }
    nextTick := 0 }]
  managers := #[someManager]

def letter : Item where
  host := "10.0.0.1"
  port := 4000
  localPort := 0
  data := [0x61]
  caller := none

/-- The second connection is the earliest that is live. -/
theorem hands_threefold :
    threefold.managers[0]? = some someManager ∧
      (threefold.resolve someManager.resolver letter.host).1 = .ok (.v4 10 0 0 1) ∧
      threefold.config? someManager.context = some narrow ∧
      (threefold.deliverItem 0 letter).1 = true ∧
      (threefold.deliverItem 0 letter).2.roster.outbox 1 = [Frame.encode letter.data] ∧
      (threefold.deliverItem 0 letter).2.roster.outbox 2 = [] := by
  have hm : threefold.managers[0]? = some someManager := rfl
  have hip : (threefold.resolve someManager.resolver letter.host).1 = .ok (.v4 10 0 0 1) := by
    decide +kernel
  have hc : threefold.config? someManager.context = some narrow := rfl
  obtain ⟨d, hands, htaken, hcarries⟩ := hands_deliverItem hm hip rfl hc
  have hearliest : Channel.Earliest { pool := .empty 1, inbound := { connections := [0, 1, 2] } }
      threefold.roster ⟨.v4 10 0 0 1, 4000, 0⟩ 1 := by
    refine ⟨⟨rfl, rfl⟩, [0], [2], rfl, fun j hj hfrom => ?_⟩
    obtain rfl := List.mem_singleton.mp hj
    cases hfrom.2
  obtain rfl := hands.preferred 1 hearliest rfl
  obtain ⟨k, hk, hqueued, hothers⟩ := hands.once rfl
  obtain rfl : 1 = k := Option.some.inj hk
  rw [← hcarries.roster] at hqueued hothers
  exact ⟨hm, hip, hc, htaken, hqueued, hothers 2 (by decide)⟩

end Courier.Sim.World
