import Courier.Proofs.Sim.Driven
import Courier.Proofs.Sim.Timers
import Courier.Proofs.Stream.Service
import Mathlib.Logic.Relation

/-!
The connections of a whole world. Its tasks run in any order, connections are used by their
names and through hubs, others are added, and anything may go on that does not concern them.
Main statement: all that becomes of a connection meanwhile are events of its life, so that what
holds of every life holds between any two moments of a world. Only the end of a connection that
nobody holds anymore is left out.
-/

namespace Courier.Stream

/-! ## Rosters -/

namespace Roster

/-- What is left of a connection whose oldest message is taken. -/
def withoutOldest (c : Connection) : Connection := c.takeMessage.elim c (·.2)

section

variable {r r' : Roster} {n : Nat}

theorem take_eq_update {message : Received} (h : r.take n = some (message, r')) :
    r' = r.update n withoutOldest := by
  obtain ⟨c, hc, h⟩ := Option.bind_eq_some_iff.mp h
  obtain ⟨⟨data, c'⟩, htake, h⟩ := Option.bind_eq_some_iff.mp h
  obtain ⟨-, rfl⟩ := Prod.mk.inj (Option.some.inj h)
  have hleft : withoutOldest c = c' := by rw [withoutOldest, htake, Option.elim_some]
  rw [← hleft]
  exact setIfInBounds_eq_update hc withoutOldest

end

section

variable {r r' : Roster} {n : Nat} (k : Nat)

/-- What the owner of a connection does, whatever its stream is like. -/
theorem leads_owned (e : Life.Event) {f : Connection → Connection}
    (hstep : ∀ s : Life, s.step e = { s with connection := f s.connection })
    (hsteady : ∀ c, Connection.Steady c (f c)) : Leads k r (r.update n f) := by
  refine leads_update fun s _ hrests => ⟨e, by rw [hstep], ?_⟩
  rw [hstep]
  exact hrests.steady rfl (hsteady s.connection)

theorem leads_foldl {f : Connection → Connection} (h : ∀ r n, Leads k r (Roster.update r n f))
    (r : Roster) (ns : List Nat) : Leads k r (ns.foldl (fun r n => r.update n f) r) := by
  induction ns generalizing r with
  | nil => exact .refl k r
  | cons n ns ih => exact (h r n).trans (ih _)

theorem leads_closeAll (r : Roster) (ns : List Nat) : Leads k r (r.closeAll ns) :=
  leads_foldl k (fun _ _ => leads_owned k .close (fun _ => rfl) Connection.steady_close) r ns

theorem leads_push (r : Roster) (c : Connection) : Leads k r (r.push c) := by
  refine leads_of_getElem? fun d hd => ?_
  have hlt := (Array.getElem?_eq_some_iff.mp hd).1
  rw [Array.getElem?_push, if_neg (Nat.ne_of_lt hlt), hd]

theorem leads_send (r : Roster) (n : Nat) (data : Bytes) : Leads k r (r.send n data).2 := by
  rw [send_eq_update]
  exact leads_owned k (.send data) (fun _ => rfl) (Connection.steady_send · data)

/-- The connection that was found to have a message gives it. -/
theorem leads_take {found : Option Nat} {message : Received}
    (h : found.bind r.take = some (message, r')) : Leads k r r' := by
  obtain ⟨n, _, htake⟩ := Option.bind_eq_some_iff.mp h
  rw [take_eq_update htake]
  exact leads_owned k .take (fun _ => rfl) Connection.steady_take

end

end Roster

/-! ## Hubs -/

namespace Channel

open Roster (Leads)

section

variable (ch : Channel) (c : Config) (r : Roster) (k : Nat) (peer : SocketAddr)

theorem leads_connect {x : Reached} (h : ch.connect c r peer = some x) : Leads k r x.roster := by
  obtain ⟨a, _, rfl⟩ := Option.map_eq_some_iff.mp h
  have hclosed := r.leads_closeAll k a.closed
  dsimp only
  split
  · exact hclosed.trans (Roster.leads_push k _ _)
  · exact hclosed

theorem leads_teardown : Leads k r (ch.teardown r).2.1 := r.leads_closeAll k _

theorem leads_reach {x : Reached} (h : ch.reach c r peer = some x) : Leads k r x.roster := by
  unfold reach at h
  split at h
  · next y hy =>
    cases h
    exact ch.leads_connect c r k peer hy
  · obtain ⟨y, hy, rfl⟩ := Option.map_eq_some_iff.mp h
    have hrebuilt : Leads k (ch.teardown r).2.1 y.roster :=
      leads_connect (ch.teardown r).2.2 c (ch.teardown r).2.1 k peer hy
    exact (ch.leads_teardown r k).trans hrebuilt

theorem leads_deliverPooled (data : Bytes) :
    Leads k r (ch.deliverPooled c r peer data).roster := by
  unfold deliverPooled
  split
  · exact .refl k r
  · next x hx => exact (ch.leads_reach c r k peer hx).trans (Roster.leads_send k _ _ _)

theorem leads_deliver (data : Bytes) : Leads k r (ch.deliver c r peer data).roster := by
  unfold deliver
  split
  · exact ch.leads_deliverPooled c r k peer data
  · next n _ =>
    have hsent := r.leads_send k n data
    generalize r.send n data = sent at hsent
    obtain ⟨taken, r'⟩ := sent
    cases taken with
    | true => exact hsent
    | false => exact hsent.trans (ch.leads_deliverPooled c r' k peer data)

theorem leads_poll (side : Side) : Leads k r (ch.poll r side).2.1 := by
  cases side with
  | inbound =>
    show Leads k r (ch.pollInbound r).2.1
    unfold pollInbound
    dsimp only
    split
    · next h => exact Roster.leads_take k h
    · exact .refl k r
  | outbound =>
    show Leads k r (ch.pollOutbound r).2.1
    unfold pollOutbound
    dsimp only
    split
    · next h => exact Roster.leads_take k h
    · exact .refl k r

theorem leads_tick (threshold : Nat) : Leads k r (ch.tick r threshold).1 := by
  have hticked := Roster.leads_foldl k (f := (·.tick threshold)) (fun _ _ =>
    Roster.leads_owned k (.tick threshold) (fun _ => rfl) (Connection.steady_tick · threshold))
    r ch.connections
  exact hticked.trans (Roster.leads_closeAll k _ _)

end

end Channel

end Courier.Stream

namespace Courier.Sim.World

open Courier.Stream
open Relation (ReflTransGen)

/-! ## What does not concern connections -/

section

variable (w : World) (n : Nat)

theorem roster_foldl {α : Type} {f : World → α → World} (h : ∀ w a, (f w a).roster = w.roster)
    (as : List α) : (as.foldl f w).roster = w.roster := by
  induction as generalizing w with
  | nil => rfl
  | cons a as ih => exact (ih (f w a)).trans (h w a)

theorem roster_sendCounted (context : Nat) (dest : SocketAddr) (packet : Bytes) :
    (w.sendCounted n context dest packet).roster = w.roster := by
  have hsend : (w.sendDatagram n dest packet).2.roster = w.roster := by
    unfold sendDatagram arrive
    split
    · rfl
    · split
      · rfl
      · dsimp only
        split
        · rfl
        · split
          · exact roster_wake _ _
          · rfl
  unfold sendCounted
  generalize w.sendDatagram n dest packet = sent at hsend
  obtain ⟨taken, w'⟩ := sent
  cases taken <;> exact hsend

theorem roster_applyReceipt (context : Nat) (sender : SocketAddr) (receipt : Datagram.Receipt) :
    (w.applyReceipt n context sender receipt).roster = w.roster := by
  unfold applyReceipt
  cases receipt.dropped <;> cases receipt.reply <;> cases receipt.message <;>
    cases receipt.progress <;> simp [roster_sendCounted, roster_wake, count, updateSocket]

theorem roster_readDatagram (sender : SocketAddr) (packet : Bytes) :
    (w.readDatagram n sender packet).roster = w.roster := by
  unfold readDatagram
  split
  · rfl
  · split
    · rfl
    · exact roster_applyReceipt _ _ _ _ _

theorem roster_runReader : (w.runReader n).roster = w.roster := by
  unfold runReader
  split
  · rfl
  · split
    · rfl
    · dsimp only
      rw [← Array.foldl_toList]
      split <;> exact roster_foldl _ (fun w _ => w.roster_readDatagram n _ _) _

theorem roster_runSender : (w.runSender n).roster = w.roster := by
  unfold runSender
  split
  · rfl
  · split
    · rfl
    · dsimp only
      rw [← Array.foldl_toList]
      exact roster_foldl _ (fun w _ => w.roster_sendCounted n _ _ _) _

theorem roster_runResendTimer : (w.runResendTimer n).roster = w.roster := by
  have htick (c : Config) (w : World) : (w.resendTick n c).roster = w.roster := by
    unfold resendTick
    split
    · rfl
    · dsimp only
      split
      · exact roster_wake _ _
      · rfl
  exact holds_runResendTimer (P := fun w' => w'.roster = w.roster) rfl
    (fun c w' h => (htick c w').trans h) fun _ _ _ h => h

theorem roster_runCall : (w.runCall n).roster = w.roster := by
  unfold runCall
  split
  · rfl
  · split
    · unfold lookCall
      split
      · split
        · rfl
        · split <;> rfl
      · split
        · rfl
        · split <;> rfl
    · rfl

theorem roster_closeEnd (e : Nat) : (w.closeEnd e).roster = w.roster := roster_wakeReader _ _

theorem roster_closeListener : (w.closeListener n).roster = w.roster := by
  unfold closeListener
  split
  · rfl
  · refine roster_foldl _ (fun w i => ?_) _
    cases i with
    | stream e _ => exact w.roster_closeEnd e
    | failure => rfl

theorem roster_stopAcceptor : (w.stopAcceptor n).roster = w.roster := by
  unfold stopAcceptor
  split
  · rfl
  · dsimp only
    split
    · rfl
    · exact roster_closeListener _ _

theorem roster_define (name : String) (o : Object) : (w.define name o).roster = w.roster := by
  have hdrop (w : World) (o : Object) : (w.dropObject o).roster = w.roster := by
    cases o with
    | stream e => exact w.roster_closeEnd e
    | listener n => exact w.roster_closeListener n
    | _ => rfl
  unfold define forget
  dsimp only
  split
  · rfl
  · exact hdrop _ _

end

/-! ## Tasks -/

section

variable (w : World) (k n : Nat)

theorem follows_acceptConnection (h : Hub) (c : Config) (e : Nat) (peer : SocketAddr) :
    Follows k w (w.acceptConnection n h c e peer) := by
  unfold acceptConnection Follows
  dsimp only [updateHub]
  rw [(same_startConnection _ _).roster]
  exact w.roster.leads_push k _

theorem follows_runAcceptor : Follows k w (w.runAcceptor n) := by
  unfold runAcceptor
  split
  · exact follows_of_roster rfl
  · next h _ =>
    split
    · exact follows_of_roster rfl
    · split
      · next c _ _ =>
        dsimp only
        split
        · split
          · exact follows_of_roster (w.roster_stopAcceptor n)
          · exact follows_of_roster rfl
        · exact follows_of_roster rfl
        · next e peer rest _ =>
          have haccepted := (w.updateListener (h.listener.getD 0) fun l =>
            { l with waiting := rest }).follows_acceptConnection k n h c e peer
          exact (follows_of_roster rfl).trans haccepted
      · exact follows_of_roster rfl

theorem follows_tickHub : Follows k w (w.tickHub n) := by
  unfold tickHub
  split
  · exact follows_of_roster rfl
  · next h _ =>
    split
    · exact follows_of_roster rfl
    · unfold Follows
      dsimp only
      rw [(same_wakeDue _ _).roster]
      exact h.channel.leads_tick w.roster k _

theorem follows_runKeepaliveTimer : Follows k w (w.runKeepaliveTimer n) :=
  holds_runKeepaliveTimer (P := Follows k w) (follows_of_roster rfl)
    (fun w' h => h.trans (w'.follows_tickHub k n)) fun _ _ _ _ h => h

theorem follows_applyReach (hub context : Nat) (localPort : UInt16) (closed used : List Nat)
    (opened rebuilt : Bool) (channel : Stream.Channel) {roster : Roster}
    (h : w.roster.Leads k roster) : Follows k w
      ((w.applyReach hub context localPort closed opened rebuilt roster channel).wakeDue used) := by
  have happly := w.same_applyReach hub context localPort closed opened rebuilt roster channel
  rw [Follows, (same_wakeDue _ _).roster, happly.roster]
  exact h

theorem follows_deliverItem (item : Item) : Follows k w (w.deliverItem n item).2 := by
  unfold deliverItem
  split
  · exact follows_of_roster rfl
  · next m _ =>
    have hresolved := (w.same_resolve m.resolver item.host).1.roster
    generalize w.resolve m.resolver item.host = resolved at hresolved
    obtain ⟨result, resolver, w₁⟩ := resolved
    have hmanaged : Follows k w (w₁.updateManager n fun m => { m with resolver }) :=
      follows_of_roster hresolved
    refine hmanaged.trans ?_
    dsimp only
    split
    · next h c _ _ =>
      exact follows_applyReach _ k _ _ _ _ _ _ _ _ (h.channel.leads_deliver c _ k _ _)
    · exact follows_of_roster rfl

theorem follows_routeItem (item : Item) : Follows k w (w.routeItem n item) := by
  unfold routeItem
  have hdelivered := w.follows_deliverItem k n item
  generalize w.deliverItem n item = delivered at hdelivered
  obtain ⟨taken, w'⟩ := delivered
  refine hdelivered.trans (follows_of_roster ?_)
  dsimp only
  split
  · rfl
  · exact roster_wake _ _

theorem follows_runRouter : Follows k w (w.runRouter n) := by
  unfold runRouter
  split
  · exact follows_of_roster rfl
  · split
    · exact follows_of_roster rfl
    · exact (follows_of_roster rfl).trans
        (follows_foldl (fun w item => w.follows_routeItem k n item)
          (w.updateManager n fun m => { m with queue := [] }) _)

/-- Whatever task runs, all that becomes of a connection are events of its life. -/
theorem follows_run (t : Task) : Follows k w (w.run t) := by
  cases t with
  | datagramReader n => exact follows_of_roster (w.roster_runReader n)
  | datagramSender n => exact follows_of_roster (w.roster_runSender n)
  | resendTimer n => exact follows_of_roster (w.roster_runResendTimer n)
  | connection n => exact w.follows_driveConnection k n
  | acceptor n => exact w.follows_runAcceptor k n
  | keepaliveTimer n => exact w.follows_runKeepaliveTimer k n
  | router n => exact w.follows_runRouter k n
  | call n => exact follows_of_roster (w.roster_runCall n)

end

/-! ## Commands -/

section

variable (w : World) (k : Nat) (name : String)

theorem follows_wakeDue {roster : Roster} (h : w.roster.Leads k roster) (ns : List Nat) :
    Follows k w ({ w with roster }.wakeDue ns) := by
  rw [Follows, (same_wakeDue _ _).roster]
  exact h

theorem follows_send (data : Bytes) : Follows k w (w.send name data).2 := by
  unfold send
  split
  · exact follows_wakeDue w k (w.roster.leads_send k _ data) _
  · exact follows_wakeDue w k (w.roster.leads_send k _ data) _
  · next n dest reliable _ =>
    split
    · exact follows_of_roster rfl
    · next s _ =>
      split
      · exact follows_of_roster rfl
      · exact follows_of_roster rfl
      · next hsent =>
        unfold enqueue at hsent
        cases hqueued : s.channel.send dest data reliable with
        | error e =>
          rw [hqueued] at hsent
          cases hsent
        | ok sent =>
          rw [hqueued] at hsent
          cases hsent
          exact follows_of_roster (roster_wake _ _)
  · exact follows_of_roster rfl

theorem follows_close : Follows k w (w.close name).2 := by
  have hclosed (n : Nat) :
      Follows k w ((w.updateConnection n Connection.close).wakeDue [n]) :=
    follows_wakeDue w k (Roster.leads_owned k .close (fun _ => rfl) Connection.steady_close) _
  unfold close
  split
  · exact hclosed _
  · exact hclosed _
  · exact follows_of_roster rfl
  · exact follows_of_roster rfl

theorem follows_tickConnection (n threshold : Nat) :
    Follows k w (w.tickConnection n threshold).2 :=
  follows_wakeDue w k (Roster.leads_owned k (.tick threshold) (fun _ => rfl)
    (Connection.steady_tick · threshold)) _

theorem follows_receiveFrame {n : Nat} {c : Connection} (hc : w.roster[n]? = some c) :
    Follows k w (w.receiveFrame n c).2 := by
  unfold receiveFrame
  split
  · exact follows_of_roster rfl
  · next data c' htake =>
    refine follows_update (f := fun _ => c') rfl fun s hs hrests => ⟨.take, ?_, ?_⟩
    · obtain rfl : c = s.connection := Option.some.inj (hc.symm.trans hs)
      show s.connection.takeMessage.elim s.connection (·.2) = c'
      rw [htake, Option.elim_some]
    · exact hrests.steady rfl s.connection.steady_take

theorem follows_pollHub (n : Nat) (side : Side) :
    Follows k w (w.pollHub n fun ch r => ch.poll r side).2 := by
  unfold pollHub
  split
  · exact follows_of_roster rfl
  · next h _ => exact h.channel.leads_poll w.roster k side

theorem follows_teardownHub (n : Nat) (h : Hub) : Follows k w (w.teardownHub n h) := by
  unfold teardownHub Follows
  dsimp only
  rw [(same_wakeDue _ _).roster]
  exact h.channel.leads_teardown w.roster k

theorem follows_connectPooled (n : Nat) (h : Hub) (c : Config) (peer : SocketAddr)
    (localPort : UInt16) : Follows k w (w.connectPooled name n h c peer localPort).2 := by
  unfold connectPooled
  split
  · exact follows_of_roster rfl
  · next x hx =>
    have happlied := w.follows_applyReach k n h.context localPort x.closed [] x.opened x.rebuilt
      x.channel (h.channel.leads_connect c w.roster k peer hx)
    exact happlied.trans (follows_of_roster (roster_define _ _ _))

/-- A connection that is added stands behind the others. -/
theorem follows_startConnection (c : Connection) (link : Link) :
    Follows k w ({ w with roster := w.roster.push c }.startConnection link) := by
  rw [Follows, (same_startConnection _ _).roster]
  exact w.roster.leads_push k c

theorem follows_defineAccepted (far : String) (context : Nat) (c : Config) (peer : SocketAddr) :
    Follows k w (w.defineAccepted name far context c peer).2 := by
  have hstarted := follows_startConnection w.openStream.2 k (.accept c peer)
    { context, stream := some w.openStream.1 }
  refine (follows_of_roster rfl).trans (hstarted.trans (follows_of_roster ?_))
  exact (roster_define _ _ _).trans (roster_define _ _ _)

theorem follows_defineDialed (context : Nat) (c : Config) (peer : SocketAddr)
    (localPort : UInt16) : Follows k w (w.defineDialed name context c peer localPort).2 := by
  have hstarted := follows_startConnection w k (.dial c peer) { context, localPort }
  exact hstarted.trans (follows_of_roster (roster_define _ _ _))

end

/-! ## All that goes on -/

/-- What can go on in a world, as far as its connections are concerned. -/
inductive Goes (w : World) : World → Prop
  /-- a task runs -/
  | ran (t : Task) : Goes w (w.run t)
  | sent (name : String) (data : Bytes) : Goes w (w.send name data).2
  | closed (name : String) : Goes w (w.close name).2
  | ticked (n threshold : Nat) : Goes w (w.tickConnection n threshold).2
  | received (n : Nat) (c : Connection) (found : w.roster[n]? = some c) :
      Goes w (w.receiveFrame n c).2
  /-- a hub is polled for a message -/
  | polled (n : Nat) (side : Side) : Goes w (w.pollHub n fun ch r => ch.poll r side).2
  | torn (n : Nat) (h : Hub) : Goes w (w.teardownHub n h)
  /-- a hub is asked for a connection to a peer -/
  | connected (name : String) (n : Nat) (h : Hub) (c : Config) (peer : SocketAddr)
      (localPort : UInt16) : Goes w (w.connectPooled name n h c peer localPort).2
  | accepted (name far : String) (context : Nat) (c : Config) (peer : SocketAddr) :
      Goes w (w.defineAccepted name far context c peer).2
  | dialed (name : String) (context : Nat) (c : Config) (peer : SocketAddr)
      (localPort : UInt16) : Goes w (w.defineDialed name context c peer localPort).2
  /-- something that does not concern the connections: time passes, datagrams arrive, peers
  write to their streams -/
  | elsewhere (w' : World) (same : w'.roster = w.roster) : Goes w w'

section

variable {w w' : World} {n : Nat}

theorem Goes.follows (h : Goes w w') (k : Nat) : Follows k w w' := by
  cases h with
  | ran t => exact w.follows_run k t
  | sent name data => exact w.follows_send k name data
  | closed name => exact w.follows_close k name
  | ticked n threshold => exact w.follows_tickConnection k n threshold
  | received n c found => exact w.follows_receiveFrame k found
  | polled n side => exact w.follows_pollHub k n side
  | torn n h => exact w.follows_teardownHub k n h
  | connected name n h c peer localPort =>
    exact w.follows_connectPooled k name n h c peer localPort
  | accepted name far context c peer => exact w.follows_defineAccepted k name far context c peer
  | dialed name context c peer localPort =>
    exact w.follows_defineDialed k name context c peer localPort
  | elsewhere w' same => exact follows_of_roster same

theorem follows_of_goes (h : ReflTransGen Goes w w') (k : Nat) : Follows k w w' := by
  induction h with
  | refl => exact follows_of_roster rfl
  | tail _ hlast ih => exact ih.trans (hlast.follows k)

/-- A connection that was disconnected at one moment is so at every later one, and takes no
message. -/
theorem disconnected_of_goes (h : ReflTransGen Goes w w') {c : Connection}
    (hc : w.roster[n]? = some c) (hdead : c.isDisconnected = true) :
    ∃ d, w'.roster[n]? = some d ∧ d.isDisconnected = true ∧
      ∀ data, (w'.roster.send n data).1 = false := by
  obtain ⟨events, hd, _⟩ := follows_of_goes h n { connection := c } hc fun _ _ => rfl
  have hstays := (Life.dead_after (s := { connection := c }) hdead events).1
  refine ⟨_, hd, hstays, fun data => ?_⟩
  unfold Roster.send
  rw [hd]
  exact Connection.send_of_isDisconnected hstays data

/-- From the moment at which a connection is opened, by this side or by the peer, whatever the
tasks of the world, the owners of connections and the peers do: between any two later moments
its life goes on as every life can. -/
theorem lifespan_of_goes {c : Config} {peer : SocketAddr} {outbound : Bool}
    (hopened : w.roster[n]? = some (Life.start c peer outbound).connection) {w₁ w₂ : World}
    (h₁ : ReflTransGen Goes w w₁) (h₂ : ReflTransGen Goes w₁ w₂) :
    ∃ before later,
      w₁.roster[n]? = some ((Life.start c peer outbound).after before).connection ∧
      w₂.roster[n]? = some (((Life.start c peer outbound).after before).after later).connection ∧
      ((Life.start c peer outbound).after before).Lifespan c later := by
  obtain ⟨before, hbefore, hrests⟩ := follows_of_goes h₁ n _ hopened fun _ _ => rfl
  obtain ⟨later, hlater, _⟩ := follows_of_goes h₂ n _ hbefore hrests
  exact ⟨before, later, hbefore, hlater,
    ((Life.sound_start c peer outbound).after before).lifespan later⟩

end

end Courier.Sim.World
