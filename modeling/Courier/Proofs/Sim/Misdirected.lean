import Courier.Proofs.Resolver
import Courier.Proofs.Sim.Handled
import Courier.Sim.Managers

/-!
Datagrams to addresses that their socket cannot send to. Main statement: a resolver that is
restricted to the family of its socket holds back what a lookup finds of the other family, but
not a host that is an address of the other family itself. That one is returned and kept, and a
message to it is taken.
-/

namespace Courier

open Resolver (Query after Entered)

namespace Datagram.Channel

/-- A channel that has to send a message to a host. -/
def sendTo (ch : Channel) (q : Query) (data : Bytes) (reliable : Bool) : Channel :=
  let resolved := { ch with resolver := (ch.resolver.ask q).resolver }
  match ch.resolver.answer q with
  | .error _ => resolved
  | .ok dest =>
    match resolved.send dest data reliable with
    | .error _ => resolved
    | .ok (_, sent) => sent

section

variable {ch : Channel} {q : Query} {data : Bytes} {reliable : Bool}

/-- A message goes to the address that its host was resolved to. -/
theorem mem_ring_sendTo {msg : Outbound.Message}
    (h : msg ∈ (ch.sendTo q data reliable).outbound.ring) :
    msg ∈ ch.outbound.ring ∨ ch.resolver.answer q = .ok msg.dest := by
  unfold sendTo send at h
  dsimp only at h
  cases hanswer : ch.resolver.answer q with
  | error e =>
    rw [hanswer] at h
    exact .inl h
  | ok dest =>
    rw [hanswer] at h
    dsimp only at h
    cases hr : ch.outbound.register dest data reliable with
    | error e =>
      rw [hr] at h
      exact .inl h
    | ok taken =>
      obtain ⟨n, outbound⟩ := taken
      rw [hr] at h
      obtain ⟨_, _, _, _, _, pieces, _, rfl⟩ := Outbound.Queue.register_eq_ok_iff.mp hr
      rcases List.mem_append.mp h with hold | hnew
      · exact .inl hold
      · obtain rfl := List.mem_singleton.mp hnew
        exact .inr rfl

theorem outbound_sendTo {dest : SocketAddr} {sequence : UInt64} {outbound : Outbound.Queue}
    (hanswer : ch.resolver.answer q = .ok dest)
    (hr : ch.outbound.register dest data reliable = .ok (sequence, outbound)) :
    (ch.sendTo q data reliable).outbound = outbound := by
  unfold sendTo send
  rw [hanswer]
  dsimp only
  rw [hr]
  rfl

end

end Datagram.Channel

namespace Sim.World

/-- What a lookup of a host name finds. -/
def found (w : World) (host : String) : Except NetError (List Ip) :=
  match w.hosts.lookup host with
  | some found => .ok found
  | none => .error .hostNotFound

/-- The query for the host of an address. -/
def queryOf (w : World) (a : Address) : Query := ⟨a.host, a.port, w.found⟩

section

variable {w : World} {m : Manager} {s : Socket} {n : Nat}

theorem still_resolve (w : World) (r : Resolver) (host : String) :
    Still w (w.resolve r host).2.2 := by
  unfold resolve
  dsimp only
  split <;> exact ⟨rfl, rfl, rfl⟩

/-- What the channel of a socket learns when it resolves the host of an address. -/
theorem resolvePeer_spec (hs : w.sockets[n]? = some s) (a : Address) :
    (w.resolvePeer n s a.host).1 = (s.channel.resolver.ask (w.queryOf a)).result ∧
      (w.resolvePeer n s a.host).2.socketOf? n = some (s.address,
        { s.channel with resolver := (s.channel.resolver.ask (w.queryOf a)).resolver }) := by
  refine ⟨rfl, ?_⟩
  have hstill := congrFun (w.still_resolve s.channel.resolver a.host).sockets n
  have hbefore : w.socketOf? n = some (s.address, s.channel) := by
    rw [socketOf?, hs]
    rfl
  obtain ⟨s', hs', heq⟩ := Option.map_eq_some_iff.mp (hstill.trans hbefore)
  obtain ⟨haddress, hchannel⟩ := Prod.mk.inj heq
  have hupdate : (w.resolvePeer n s a.host).2 =
      (w.resolve s.channel.resolver a.host).2.2.updateSocket n fun s' =>
        { s' with channel := { s'.channel with
            resolver := (s.channel.resolver.ask (w.queryOf a)).resolver } } := rfl
  rw [hupdate, socketOf?_updateSocket, if_pos rfl, hs', Option.map_some, haddress, hchannel]

theorem enqueue_error {dest : SocketAddr} {data : Bytes} {reliable : Bool}
    {e : Outbound.SendError} (h : s.channel.send dest data reliable = .error e) :
    w.enqueue n s dest data reliable = .error e := by
  rw [enqueue, h]
  rfl

theorem enqueue_ok {ch : Datagram.Channel} {dest : SocketAddr} {data : Bytes} {reliable : Bool}
    {sequence : UInt64} (hs : w.sockets[n]? = some s)
    (h : s.channel.send dest data reliable = .ok (sequence, ch)) :
    ∃ w', w.enqueue n s dest data reliable = .ok (sequence, w') ∧
      w'.socketOf? n = some (s.address, ch) := by
  refine ⟨(w.updateSocket n fun s => { s with channel := ch }).wake (.datagramSender n), ?_, ?_⟩
  · rw [enqueue, h]
    rfl
  · rw [(still_wake _ _).sockets, socketOf?_setChannel hs (.refl w), if_pos rfl]

/-- A manager has the channel of its socket send a message to the host of an address. -/
theorem socketOf?_sendDatagrams (hs : w.sockets[m.socket]? = some s) (a : Address) (data : Bytes)
    (robust : Bool) (wait : Option Duration) :
    (w.sendDatagrams n m a data robust wait).2.socketOf? m.socket =
      some (s.address, s.channel.sendTo (w.queryOf a) data robust) := by
  obtain ⟨hresult, hresolved⟩ := resolvePeer_spec hs a
  unfold sendDatagrams Datagram.Channel.sendTo Resolver.answer
  rw [hs]
  dsimp only
  rw [← hresult]
  generalize { s.channel with
    resolver := (s.channel.resolver.ask (w.queryOf a)).resolver } = resolved at hresolved ⊢
  generalize w.resolvePeer m.socket s a.host = found at hresolved ⊢
  obtain ⟨result, w₁⟩ := found
  obtain ⟨s', hs', heq⟩ := Option.map_eq_some_iff.mp hresolved
  obtain ⟨haddress, rfl⟩ := Prod.mk.inj heq
  rw [← haddress] at hresolved ⊢
  cases result with
  | error e => exact hresolved
  | ok ip =>
    dsimp only [Except.map, queryOf]
    rw [hs']
    dsimp only
    cases hsend : s'.channel.send ⟨ip, a.port, 0⟩ data robust with
    | error e =>
      rw [enqueue_error hsend]
      cases e <;> exact hresolved
    | ok taken =>
      obtain ⟨w₂, henqueue, hsent⟩ := enqueue_ok hs' hsend
      rw [henqueue]
      cases wait with
      | none => exact hsent
      | some wait =>
        dsimp only
        split <;> exact hsent

/-- No datagram goes to an address of the other family. -/
theorem sendDatagram_of_family_ne (hs : w.sockets[n]? = some s) {dest : SocketAddr}
    (hdest : dest.family ≠ s.address.family) (packet : Bytes) :
    w.sendDatagram n dest packet = (false, w) := by
  have hsource : (sourceAddress s.address).family = s.address.family := by
    unfold sourceAddress
    split
    · cases s.address.family <;> rfl
    · rfl
  unfold sendDatagram
  rw [hs, Option.map_some]
  exact if_pos (hsource ▸ hdest.symm)

/-- What a resolver, asked some queries, yields of the family that it is not restricted to. -/
structure Misdirects (family : Ip.Family) (queries : List Query) (r : Resolver) : Prop where
  /-- an address of the other family is the answer to exactly the host that is this address -/
  answers : ∀ (q : Query) (ip : Ip), ip.family ≠ family →
    ((r.ask q).result = .ok ip ↔ Ip.ofText? q.host = some ip)
  /-- it is kept if it was asked for, and not otherwise -/
  keeps : ∀ (key : String) (ip : Ip), ip.family ≠ family →
    (r.cached key = some ip ↔ Entered queries key ip)
  /-- a manager's new messages go to the family of the socket, or to a host that is an address -/
  sends : ∀ (w : World) (n : Nat) (m : Manager) (s : Socket), w.sockets[m.socket]? = some s →
    s.channel.resolver = r → ∀ (a : Address) (data : Bytes) (robust : Bool)
      (wait : Option Duration), ∃ ch,
      (w.sendDatagrams n m a data robust wait).2.socketOf? m.socket = some (s.address, ch) ∧
      (∀ msg ∈ ch.outbound.ring, msg ∈ s.channel.outbound.ring ∨ msg.dest.family = family ∨
        Ip.ofText? a.host = some msg.dest.ip) ∧
      -- and every message to such a host is taken that the queue has room for
      ∀ ip sequence outbound, Ip.ofText? a.host = some ip →
        s.channel.outbound.register ⟨ip, a.port, 0⟩ data robust = .ok (sequence, outbound) →
        ch.outbound = outbound
  /-- no datagram ever leaves for the other family -/
  unsent : ∀ (w : World) (n : Nat) (s : Socket), w.sockets[n]? = some s →
    s.address.family = family → ∀ (dest : SocketAddr) (packet : Bytes), dest.family ≠ family →
      w.sendDatagram n dest packet = (false, w)

/-- The restriction of a resolver holds for what lookups find, and for nothing else. -/
theorem misdirects_run (family : Ip.Family) (queries : List Query) :
    Misdirects family queries (after { family := some family } queries) where
  answers q _ hip := Resolver.ask_eq_ok_iff family queries q hip
  keeps := Resolver.keepsEntered_after family queries
  sends w n m s hs hr a data robust wait := by
    refine ⟨_, socketOf?_sendDatagrams hs a data robust wait, fun msg hmsg => ?_,
      fun ip sequence outbound hreads hregister => ?_⟩
    · rcases Datagram.Channel.mem_ring_sendTo hmsg with hold | hanswer
      · exact .inl hold
      · refine .inr (or_iff_not_imp_left.mpr fun hother => ?_)
        rw [hr] at hanswer
        obtain ⟨ip, hresult, hdest⟩ := Resolver.answer_eq_ok_iff.mp hanswer
        rw [hdest] at hother ⊢
        exact (Resolver.ask_eq_ok_iff family queries (w.queryOf a) hother).mp hresult
    · have hresult := ((Resolver.coherent_after (some family) queries).ask_literal
        (q := w.queryOf a) hreads).1
      rw [← hr] at hresult
      exact Datagram.Channel.outbound_sendTo (Resolver.answer_eq_ok_iff.mpr ⟨ip, hresult, rfl⟩)
        hregister
  unsent _ _ _ hs hfamily dest packet hdest :=
    sendDatagram_of_family_ne hs (hfamily ▸ hdest) packet

/-- A manager whose socket is bound to an address of the older family. -/
def local4 : World where
  contexts := #[{ config := {} }]
  sockets := #[{
    context := 0
    address := ⟨.loopback .v4, 7000, 0⟩
    channel := .ofConfig {} .v4
    tasks := []
    nextTick := 0 }]
  managers := #[{ context := 0, socket := 0, hub := 0 }]

/-- An address of the newer family is returned and kept, and a message to it accepted that the
socket cannot send. -/
theorem misdirected_loopback :
    let r := after { family := some .v4 } [⟨"::1", 80, fun _ => .error .hostNotFound⟩]
    let sent := local4.beginSend 0 { context := 0, socket := 0, hub := 0 } {}
      "udp://[::1]:7001" [0x61] true
    r.cached "::1" = some (.loopback .v6) ∧
      sent.1 = .finished true ∧
      (sent.2.socketOf? 0).map (·.2.outbound.ring.map (·.dest)) =
        some [⟨.loopback .v6, 7001, 0⟩] ∧
      (sent.2.sendDatagram 0 ⟨.loopback .v6, 7001, 0⟩ [0x61]).1 = false := by
  exact ⟨by decide +kernel, rfl, by decide +kernel, by decide +kernel⟩

end

end Sim.World

end Courier
