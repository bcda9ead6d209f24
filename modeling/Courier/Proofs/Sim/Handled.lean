import Courier.Proofs.Datagram.Handling
import Courier.Sim.Tasks

/-!
What one datagram does to a world. Main statement: whatever its bytes are, whoever sent it and
whatever the channel that takes it in went through before, nothing halts, the one datagram that
may be sent is the acknowledgement of a chunk, and drops are counted one by one.
-/

namespace Courier.Sim.World

open Datagram (Handles Life handles_receive)
open Reassembly (Store)

/-! ## What stays the same -/

/-- The count of dropped chunks in the statistics of a context. -/
def droppedChunks (w : World) (n : Nat) : Option UInt64 :=
  (w.contexts[n]?).map (·.stats.droppedChunks)

/-- The address and the channel of a socket. -/
def socketOf? (w : World) (n : Nat) : Option (SocketAddr × Datagram.Channel) :=
  (w.sockets[n]?).map fun s => (s.address, s.channel)

/-- Dropped chunks, sent datagrams, and the addresses and channels of sockets are as before. -/
structure Still (w w' : World) : Prop where
  dropped : w'.droppedChunks = w.droppedChunks
  log : w'.log = w.log
  sockets : w'.socketOf? = w.socketOf?

variable {w w' w'' : World}

theorem Still.refl (w : World) : Still w w := ⟨rfl, rfl, rfl⟩

theorem Still.trans (h : Still w w') (g : Still w' w'') : Still w w'' :=
  ⟨g.dropped.trans h.dropped, g.log.trans h.log, g.sockets.trans h.sockets⟩

theorem droppedChunks_count (w : World) (context : Nat) (f : Stats → Stats) (n : Nat) :
    (w.count context f).droppedChunks n =
      if n = context then (w.contexts[n]?).map fun c => (f c.stats).droppedChunks
      else w.droppedChunks n :=
  map_getElem?_modify w.contexts context _ (·.stats.droppedChunks) n

theorem still_count (w : World) (context : Nat) {f : Stats → Stats}
    (hf : ∀ s, (f s).droppedChunks = s.droppedChunks) : Still w (w.count context f) where
  dropped := funext (map_getElem?_modify_of_eq w.contexts context fun c => hf c.stats)
  log := rfl
  sockets := rfl

theorem socketOf?_updateSocket (w : World) (n : Nat) (f : Socket → Socket) (m : Nat) :
    (w.updateSocket n f).socketOf? m =
      if m = n then (w.sockets[m]?).map fun s => ((f s).address, (f s).channel)
      else w.socketOf? m :=
  map_getElem?_modify w.sockets n f (fun s => (s.address, s.channel)) m

theorem still_updateSocket (w : World) (n : Nat) {f : Socket → Socket}
    (hf : ∀ s, (f s).address = s.address ∧ (f s).channel = s.channel) :
    Still w (w.updateSocket n f) where
  dropped := rfl
  log := rfl
  sockets := funext (map_getElem?_modify_of_eq w.sockets n fun s =>
    Prod.ext (hf s).1 (hf s).2)

theorem still_wake (w : World) (t : Task) : Still w (w.wake t) := by
  unfold wake
  split
  · exact .refl w
  · split <;> exact ⟨rfl, rfl, rfl⟩

theorem still_arrive (w : World) (socket : Nat) (source : SocketAddr) (packet : Bytes) :
    Still w (w.arrive socket source packet) := by
  refine .trans (still_updateSocket w socket ?_) (still_wake _ (.datagramReader socket))
  exact fun _ => ⟨rfl, rfl⟩

/-- What is sent is in the log, if the address is of the right family. -/
theorem still_sendDatagram {socket : Nat} {source : SocketAddr} {ch : Datagram.Channel}
    (hs : w.socketOf? socket = some (source, ch)) (dest : SocketAddr) (packet : Bytes) :
    Still { w with
        log := if (sourceAddress source).family = dest.family then
          w.log.push ⟨sourceAddress source, dest, packet⟩ else w.log }
      (w.sendDatagram socket dest packet).2 := by
  obtain ⟨s, hsocket, heq⟩ := Option.map_eq_some_iff.mp hs
  obtain ⟨rfl, _⟩ := Prod.mk.inj heq
  unfold sendDatagram
  rw [hsocket, Option.map_some]
  dsimp only
  by_cases hfamily : (sourceAddress s.address).family = dest.family
  swap
  · rw [if_pos hfamily, if_neg hfamily]
    exact .refl w
  rw [if_neg (not_not.mpr hfamily), if_pos hfamily]
  split
  · exact .refl _
  · split
    · exact still_arrive _ _ _ _
    · exact ⟨rfl, rfl, rfl⟩

theorem still_sendCounted {socket : Nat} {source : SocketAddr} {ch : Datagram.Channel}
    (hs : w.socketOf? socket = some (source, ch)) (context : Nat) (dest : SocketAddr)
    (packet : Bytes) :
    Still { w with
        log := if (sourceAddress source).family = dest.family then
          w.log.push ⟨sourceAddress source, dest, packet⟩ else w.log }
      (w.sendCounted socket context dest packet) := by
  have h := still_sendDatagram hs dest packet
  unfold sendCounted
  generalize w.sendDatagram socket dest packet = result at h
  obtain ⟨sent, w'⟩ := result
  cases sent with
  | true => exact h.trans (still_count w' context fun _ => rfl)
  | false => exact h

/-! ## One datagram -/

/-- The log with the reply of a receipt, if it can be sent. -/
def replied (w : World) (source sender : SocketAddr) (receipt : Datagram.Receipt) : Array Sent :=
  match receipt.reply with
  | some b => if (sourceAddress source).family = sender.family then
      w.log.push ⟨sourceAddress source, sender, b⟩ else w.log
  | none => w.log

/-- What a datagram does to the world of the socket that takes it in, if the channel of the
socket does this with it. -/
structure Effects (w w' : World) (n : Nat) (s : Socket) (sender : SocketAddr)
    (receipt : Datagram.Receipt) (ch : Datagram.Channel) : Prop where
  /-- drops are counted one by one -/
  dropped : w'.droppedChunks s.context = if receipt.dropped then
    (w.droppedChunks s.context).map (· + 1) else w.droppedChunks s.context
  /-- nobody else's are counted -/
  others : ∀ m ≠ s.context, w'.droppedChunks m = w.droppedChunks m
  /-- nothing is sent but the reply, to the sender and once -/
  sent : w'.log = w.replied s.address sender receipt
  /-- no other channel changes -/
  sockets : ∀ m, w'.socketOf? m = if m = n then some (s.address, ch) else w.socketOf? m

theorem still_applyReceipt {n : Nat} {source : SocketAddr} {ch : Datagram.Channel}
    (hs : w.socketOf? n = some (source, ch)) (context : Nat) (sender : SocketAddr)
    (receipt : Datagram.Receipt) :
    Still { (if receipt.dropped then w.count context Stats.chunkDropped else w) with
        log := w.replied source sender receipt }
      (w.applyReceipt n context sender receipt) := by
  obtain ⟨reply, message, dropped, progress⟩ := receipt
  have hlog : (if dropped then w.count context Stats.chunkDropped else w).log = w.log := by
    split <;> rfl
  have hsocket : (if dropped then w.count context Stats.chunkDropped else w).socketOf? n =
      some (source, ch) := by
    split <;> exact hs
  unfold applyReceipt replied
  rw [← hlog]
  dsimp only
  generalize (if dropped then w.count context Stats.chunkDropped else w) = w₁ at hsocket
  have hreply (b : Bytes) := still_sendCounted hsocket context sender b
  have hmessage (w₂ : World) (m : Received) :
      Still w₂ (w₂.updateSocket n fun s => { s with inbox := s.inbox ++ [m] }) :=
    still_updateSocket w₂ n fun _ => ⟨rfl, rfl⟩
  have hwake (w₃ : World) : Still w₃ (if progress then w₃.wake (.datagramSender n) else w₃) := by
    split
    · exact still_wake w₃ _
    · exact .refl w₃
  cases reply with
  | none =>
    cases message with
    | none => exact hwake w₁
    | some m => exact (hmessage w₁ m).trans (hwake _)
  | some b =>
    cases message with
    | none => exact (hreply b).trans (hwake _)
    | some m => exact ((hreply b).trans (hmessage _ m)).trans (hwake _)

theorem socketOf?_setChannel {n : Nat} {s : Socket} (hs : w.sockets[n]? = some s)
    (h : Still w w') (ch : Datagram.Channel) (m : Nat) :
    (w'.updateSocket n fun s => { s with channel := ch }).socketOf? m =
      if m = n then some (s.address, ch) else w.socketOf? m := by
  rw [socketOf?_updateSocket, h.sockets]
  by_cases hm : m = n
  · subst hm
    have haddress := congrArg (Option.map Prod.fst) (congrFun h.sockets m)
    rw [socketOf?, socketOf?, Option.map_map, Option.map_map, hs] at haddress
    obtain ⟨s', hs', heq⟩ := Option.map_eq_some_iff.mp haddress
    rw [if_pos rfl, if_pos rfl, hs', Option.map_some]
    exact congrArg (fun a => some (a, ch)) heq
  · rw [if_neg hm, if_neg hm]

theorem effects_applyReceipt {n : Nat} {s : Socket} (hs : w.sockets[n]? = some s)
    (h : Still w w') (sender : SocketAddr) (receipt : Datagram.Receipt) (ch : Datagram.Channel) :
    Effects w ((w'.updateSocket n fun s => { s with channel := ch }).applyReceipt n s.context sender
      receipt) n s sender receipt ch := by
  have hsockets := socketOf?_setChannel hs h ch
  have hstill := still_applyReceipt ((hsockets n).trans (if_pos rfl)) s.context sender receipt
  generalize hset : (w'.updateSocket n fun s => { s with channel := ch }) = w₂ at hsockets hstill ⊢
  have hbefore : w₂.droppedChunks = w.droppedChunks := by
    subst hset
    exact h.dropped
  have hcount (m : Nat) : (w₂.applyReceipt n s.context sender receipt).droppedChunks m =
      (if receipt.dropped then w₂.count s.context Stats.chunkDropped else w₂).droppedChunks m :=
    congrFun hstill.dropped m
  refine ⟨?_, fun m hm => ?_, ?_, fun m => ?_⟩
  · rw [hcount, ← hbefore]
    split
    · rw [droppedChunks_count, if_pos rfl, droppedChunks, Option.map_map]
      rfl
    · rfl
  · rw [hcount, ← hbefore]
    split
    · rw [droppedChunks_count, if_neg hm]
    · rfl
  · rw [hstill.log]
    subst hset
    show w'.replied s.address sender receipt = _
    unfold replied
    rw [h.log]
  · rw [hstill.sockets, ← hsockets]
    split <;> rfl

theorem readDatagram_eq {n : Nat} {s : Socket} {c : Config} (hs : w.sockets[n]? = some s)
    (hc : w.config? s.context = some c) (sender : SocketAddr) (packet : Bytes) :
    w.readDatagram n sender packet =
      ((w.count s.context (·.received packet.length)).updateSocket n fun s' =>
        { s' with channel := (s.channel.receive c w.now sender packet).2 }).applyReceipt n s.context
          sender (s.channel.receive c w.now sender packet).1 := by
  unfold readDatagram
  rw [hs]
  dsimp only
  rw [hc]
  rfl

theorem effects_readDatagram {n : Nat} {s : Socket} {c : Config} (hs : w.sockets[n]? = some s)
    (hc : w.config? s.context = some c) (sender : SocketAddr) (packet : Bytes) :
    Effects w (w.readDatagram n sender packet) n s sender
      (s.channel.receive c w.now sender packet).1 (s.channel.receive c w.now sender packet).2 := by
  have hcounted : Still w (w.count s.context (·.received packet.length)) :=
    still_count w s.context fun _ => rfl
  rw [readDatagram_eq hs hc]
  exact effects_applyReceipt hs hcounted sender _ _

/-- With accepted settings, and room in a word for all buffers and one more message, a channel
handles every datagram, whatever happened to the channel before. Whether the reply can be sent
makes no difference to it. -/
theorem handled_run {c : Config} (hc : c.validate = .ok ())
    (hfit : c.maxPartialBytes + Chunk.maxCount * c.chunkSize ≤ wordMax) (family : Ip.Family)
    (events : List Life.Event) (now : Instant) (sender : SocketAddr) (packet : Bytes) :
    let ch := (Life.run c family events).channel
    let receipt := (ch.receive c now sender packet).1
    let ch' := (ch.receive c now sender packet).2
    Handles c ch now sender packet receipt ch' ∧
      (∃ table, Store.run? c.chunkSize c.maxPartialBytes
          (Life.calls c (events ++ [.receive sender packet now])) = some table ∧
        table.Mirrors ch'.inbound) ∧
      ∀ (w : World) (n : Nat) (s : Socket), w.sockets[n]? = some s →
        w.config? s.context = some c → s.channel = ch → w.now = now →
        Effects w (w.readDatagram n sender packet) n s sender receipt ch' := by
  intro ch receipt ch'
  have htable := Life.exists_run? hc hfit family (events ++ [.receive sender packet now])
  rw [Life.run_append] at htable
  refine ⟨handles_receive c ch now sender packet, htable, ?_⟩
  rintro w n s hs hconfig hch rfl
  have heffects := effects_readDatagram hs hconfig sender packet
  rwa [hch] at heffects

/-- Settings for chunks of two bytes. -/
def tiny : Config := { packetSize := 15 }

def somePeer : SocketAddr := { ip := .v4 10 0 0 1, port := 4000 }

/-- A message of two chunks has begun. -/
def firstHalf : List Life.Event := [.receive somePeer (Chunk.packet ⟨.data, 7, 2, 0⟩ [1, 2]) 5]

/-- Its second chunk tells another total. -/
def contradicting : Bytes := Chunk.packet ⟨.data, 7, 3, 1⟩ [3, 4]

def halfSocket : Socket where
  context := 0
  address := { ip := .v4 127 0 0 1, port := 9000 }
  channel := (Life.run tiny .v4 firstHalf).channel
  tasks := []
  nextTick := 0

def halfWorld : World where
  now := 6
  contexts := #[{ config := tiny }]
  sockets := #[halfSocket]

/-- The chunk is acknowledged all the same, and counted as dropped. -/
theorem handled_run_contradicting :
    tiny.validate = .ok () ∧ tiny.maxPartialBytes + Chunk.maxCount * tiny.chunkSize ≤ wordMax ∧
      (halfSocket.channel.receive tiny 6 somePeer contradicting).1.reply =
        some (Chunk.packet ⟨.ack, 7, 3, 1⟩ []) ∧
      (halfWorld.readDatagram 0 somePeer contradicting).droppedChunks 0 = some 1 := by
  have hc : tiny.validate = .ok () := by decide
  have hfit : tiny.maxPartialBytes + Chunk.maxCount * tiny.chunkSize ≤ wordMax := by decide
  obtain ⟨handles, _, heffects⟩ := handled_run hc hfit .v4 firstHalf 6 somePeer contradicting
  have hvalid : Chunk.Header.Valid ⟨.data, 7, 3, 1⟩ := by
    show (1 : UInt16) < 3
    decide
  have hdecode : Chunk.Header.decode contradicting = .ok (⟨.data, 7, 3, 1⟩, [3, 4]) :=
    Chunk.Header.decode_packet hvalid [3, 4]
  have hreply := (handles.reply _).mpr ⟨by decide, _, _, hdecode, rfl, rfl⟩
  have hdropped := handles.dropped.mpr
    (Or.inr (Or.inr ⟨_, _, .totalDiffers, hdecode, by decide, by decide⟩))
  have hcounted := (heffects halfWorld 0 halfSocket rfl rfl rfl rfl).dropped
  rw [if_pos hdropped] at hcounted
  exact ⟨hc, hfit, hreply, hcounted⟩

end Courier.Sim.World
