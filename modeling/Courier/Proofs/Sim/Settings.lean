import Courier.Proofs.Config
import Courier.Proofs.Frame.Decode
import Courier.Proofs.Outbound.Chunks
import Courier.Proofs.Sim.Timers

/-!
What the rules for settings leave to those who use the settings: the sizes and counts of chunks,
the periods of timers, and the limit for frames. Main statement: there are settings for which
the check has no answer; accepted settings provide for all that concerns chunks, while timers
and keepalive frames depend on three of them about which there is no rule.
-/

namespace Courier

/-! ## Chunks -/

namespace Outbound.Queue

/-- The chunks of every message that is taken in are counted by 16 bits, and the message goes
out with this count. -/
def Counts (q : Queue) : Prop :=
  ∀ limit (data : Bytes), q.maxMessageSize? = some limit → data ≠ [] → data.length ≤ limit →
    ∃ count : UInt16, 1 ≤ count.toNat ∧
      Chunk.count? data.length q.chunkSize = some count.toNat ∧
      Chunk.narrow? count.toNat = some count ∧
      ∀ dest reliable, q.nextNumber.toNat ≠ wordMax →
        ∃ q' m, q.register dest data reliable = .ok (q.nextNumber, q') ∧
          q'.ring = q.ring ++ [m] ∧ m.total = count.toNat ∧ ∀ i, (m.header i).total = count

theorem counts_of_chunkSize_pos (q : Queue) (hpos : 0 < q.chunkSize) : q.Counts := by
  intro limit data hlimit hdata hlength
  obtain ⟨hword, rfl⟩ : Chunk.maxCount * q.chunkSize ≤ wordMax ∧
      Chunk.maxCount * q.chunkSize = limit := by
    simpa [maxMessageSize?] using hlimit
  obtain ⟨pieces, hsplit⟩ := Chunk.exists_split? hpos data
  have hcut := Chunk.Cut.of_split? hsplit
  have hmax : pieces.size ≤ Chunk.maxCount := hcut.size_le_of_length_le hlength
  have hnat : (UInt16.ofNat pieces.size).toNat = pieces.size :=
    UInt16.toNat_ofNat_of_lt' (Nat.lt_succ_of_le hmax)
  refine ⟨UInt16.ofNat pieces.size, by rw [hnat]; exact hcut.size_pos hdata, ?_, ?_, ?_⟩
  · rw [hnat]
    exact hcut.count?_eq
  · rw [hnat]
    exact if_pos hmax
  · intro dest reliable hlast
    refine ⟨_, { sequence := q.nextNumber, dest, reliable, pieces }, register_eq_ok_iff.mpr
      ⟨rfl, hlast, hdata, hlength, hword, pieces, hsplit, rfl⟩, rfl, hnat.symm, fun _ => rfl⟩

end Outbound.Queue

/-! ## Keepalive frames -/

namespace Frame

variable {payload : Bytes}

theorem length_keepalive (h : isKeepalive payload = true) : payload.length = 2 := by
  have hcases : payload = ping ∨ payload = pong := by
    simpa [isKeepalive] using h
  rcases hcases with rfl | rfl <;> rfl

/-- A decoder takes a keepalive frame just if the limit lets two bytes pass. -/
theorem decode_keepalive (h : isKeepalive payload = true) (limit : Nat) :
    decode limit .seek (encode payload) =
      if 2 ≤ limit then ⟨.seek, [payload], none⟩ else ⟨.seek, [], some (.tooLarge limit)⟩ := by
  have hlength := length_keepalive h
  split
  · next hlimit =>
    refine Fits.decode_encode ⟨?_, by omega, ?_⟩
    · exact List.ne_nil_of_length_eq_add_one hlength
    · rw [hlength]
      decide
  · next hlimit =>
    have hword : (2 : Nat) ≤ wordMax := by decide
    exact decode_encode_over (by omega) (by omega)

end Frame

namespace Stream.Connection

/-- A keepalive frame beyond the limit ends the connection that it comes to. -/
theorem receive_keepalive (c : Connection) {payload : Bytes} (hopened : c.phase = .opened .seek)
    (h : Frame.isKeepalive payload = true) :
    c.receive (Frame.encode payload) =
      if 2 ≤ c.maxFrameSize then c.takeFrame payload else c.hangUp := by
  have hsame : { c with phase := .opened .seek } = c := by rw [← hopened]
  rw [receive, hopened]
  dsimp only
  rw [Frame.decode_keepalive h]
  by_cases hlimit : 2 ≤ c.maxFrameSize
  · simp [hlimit, hsame]
  · simp [hlimit, hsame]

end Stream.Connection

/-! ## All that depends on the settings -/

namespace Config

open Sim (World Task Socket Hub)

/-- What accepted settings provide, and what they leave open. -/
structure Provides (c : Config) : Prop where
  chunkSize_pos : 1 ≤ c.chunkSize
  /-- the size of the largest message is a machine word -/
  messageSize_le : Chunk.maxCount * c.chunkSize ≤ wordMax
  counts : ∀ q : Outbound.Queue, q.chunkSize = c.chunkSize → q.Counts
  /-- a period of zero or beyond the clock ends the resend timer -/
  resends : ∀ (w : World) (n : Nat) (s : Socket), w.sockets[n]? = some s →
    w.config? s.context = some c → .resendTimer n ∈ s.tasks →
    (w.runResendTimer n).tasksOf? n =
        some (if World.isUnusable c.resendInterval then s.tasks.filter (· ≠ .resendTimer n)
          else s.tasks) ∧
      (World.isUnusable c.resendInterval = false →
        (w.runResendTimer n).Awaits (.resendTimer n))
  /-- and likewise the keepalive timer -/
  ticks : ∀ (w : World) (n : Nat) (h : Hub), w.hubs[n]? = some h →
    w.config? h.context = some c → h.ticking = true →
    (w.runKeepaliveTimer n).ticking? n = some !World.isUnusable c.keepaliveInterval ∧
      (World.isUnusable c.keepaliveInterval = false →
        (w.runKeepaliveTimer n).Awaits (.keepaliveTimer n))
  /-- a keepalive frame is refused if it is beyond the limit for frames -/
  keepalive : ∀ payload, Frame.isKeepalive payload = true →
    Frame.decode c.maxFrameSize .seek (Frame.encode payload) =
      if 2 ≤ c.maxFrameSize then ⟨.seek, [payload], none⟩
      else ⟨.seek, [], some (.tooLarge c.maxFrameSize)⟩
  /-- and ends the connection then -/
  receives : ∀ (connection : Stream.Connection) (payload : Bytes),
    connection.maxFrameSize = c.maxFrameSize → connection.phase = .opened .seek →
    Frame.isKeepalive payload = true →
    connection.receive (Frame.encode payload) =
      if 2 ≤ c.maxFrameSize then connection.takeFrame payload else connection.hangUp

/-- The check halts just if the resend window is longer than any duration and no rule before
is broken. Past the first rule no chunk size is below zero. Accepted settings provide for
chunks of any message, and for the timers and keepalive frames if their periods are usable and
their limit lets two bytes pass, which no rule asks for. -/
theorem provides_validate (c : Config) :
    (c.validate = .error .windowOutOfRange ↔
      Chunk.Header.size < c.packetSize ∧ c.packetSize ≤ maxPacketSize ∧ 0 < c.maxFlight ∧
        c.resendTickThreshold ≤ c.resendThreshold ∧
        Duration.maxNanos < c.resendInterval.nanos * c.resendThreshold) ∧
      (c.validate ≠ .error (.packetBelowHeader c.packetSize) →
        c.chunkSize + Chunk.Header.size = c.packetSize) ∧
      (c.validate = .ok () → c.Provides) := by
  refine ⟨validate_eq_windowOutOfRange_iff c, chunkSize_add_of_validate, fun hvalid => ?_⟩
  have hsound := (validate_eq_ok_iff c).mp hvalid
  have hpos : 1 ≤ c.chunkSize := Nat.sub_pos_of_lt hsound.header_lt
  have hsize : Chunk.maxCount * c.chunkSize ≤ wordMax :=
    Nat.le_trans (Nat.mul_le_mul_left _ (Nat.le_trans (Nat.sub_le _ _) hsound.packetSize_le))
      (by decide)
  exact {
    chunkSize_pos := hpos
    messageSize_le := hsize
    counts := fun q hq => q.counts_of_chunkSize_pos (hq ▸ hpos)
    resends := fun w n s hs hc htask => World.tasksOf?_runResendTimer hs hc htask
    ticks := fun w n h hh hc hticking => World.ticking?_runKeepaliveTimer hh hc hticking
    keepalive := fun payload h => Frame.decode_keepalive h c.maxFrameSize
    receives := fun connection payload hlimit hopened h =>
      hlimit ▸ connection.receive_keepalive hopened h }

/-- Settings with a resend window that is longer than any duration. -/
def endless : Config := { resendInterval := .ofSeconds wordMax }

/-- Accepted settings with which no timer ticks and no ping is taken. -/
def idle : Config := { resendInterval := ⟨0⟩, keepaliveInterval := ⟨0⟩, maxFrameSize := 1 }

theorem unprovided_idle :
    endless.validate = .error .windowOutOfRange ∧ idle.validate = .ok () ∧
      idle.resendInterval.nanos = 0 ∧ idle.keepaliveInterval.nanos = 0 ∧
      Frame.decode idle.maxFrameSize .seek (Frame.encode Frame.ping) =
        ⟨.seek, [], some (.tooLarge 1)⟩ :=
  ⟨rfl, rfl, rfl, rfl, Frame.decode_keepalive rfl 1⟩

end Config

end Courier
