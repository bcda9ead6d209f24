import Courier.Proofs.Chunk.Codec
import Mathlib.Algebra.BigOperators.Ring.Finset
import Mathlib.Data.List.GetD

/-!
Where the parts of a header stand on the wire. Main statement: a chunk is read back as its header
and its payload, and the bytes that can be read are those with the marker of a kind in front and
an index below the count of chunks at its place. What was read from them is written as they are.
-/

namespace Courier

namespace Bytes

/-- The number in `width` bytes from `start` on, where a byte counts 256 times the next one. -/
def numberAt (b : Bytes) (start width : Nat) : Nat :=
  ∑ i ∈ Finset.range width, (b.getD (start + i) 0).toNat * 256 ^ (width - 1 - i)

theorem toNat_eq_numberAt (b : Bytes) : toNat b = b.numberAt 0 b.length := by
  induction b using List.reverseRecOn with
  | nil => rfl
  | append_singleton b x ih =>
    have hlow : (b ++ [x]).getD (0 + b.length) 0 = x := by simp
    have hhigh : ∀ i ∈ Finset.range b.length,
        ((b ++ [x]).getD (0 + i) 0).toNat * 256 ^ (b.length + 1 - 1 - i) =
          (b.getD (0 + i) 0).toNat * 256 ^ (b.length - 1 - i) * 256 := fun i hi => by
      have hi := Finset.mem_range.mp hi
      rw [Nat.zero_add, List.getD_append _ _ _ _ hi, Nat.mul_assoc, ← Nat.pow_succ]
      congr 2
      omega
    rw [toNat_append_singleton, ih, numberAt, numberAt, List.length_append, List.length_singleton,
      Finset.sum_range_succ, hlow, Finset.sum_congr rfl hhigh, ← Finset.sum_mul]
    simp

section

variable {b : Bytes} {start width : Nat}

theorem length_slice (h : start + width ≤ b.length) :
    ((b.drop start).take width).length = width := by
  rw [List.length_take, List.length_drop]
  omega

/-- A number is read off the bytes that are cut out for it. -/
theorem toNat_slice (h : start + width ≤ b.length) :
    toNat ((b.drop start).take width) = b.numberAt start width := by
  rw [toNat_eq_numberAt, length_slice h]
  refine Finset.sum_congr rfl fun i hi => ?_
  have hi := Finset.mem_range.mp hi
  simp [hi]

theorem ofNat_numberAt (h : start + width ≤ b.length) :
    ofNat width (b.numberAt start width) = (b.drop start).take width := by
  have hbytes := ofNat_toNat ((b.drop start).take width)
  rwa [length_slice h, toNat_slice h] at hbytes

theorem numberAt_lt (h : start + width ≤ b.length) : b.numberAt start width < 256 ^ width := by
  have hlt := toNat_lt ((b.drop start).take width)
  rwa [length_slice h, toNat_slice h] at hlt

end

end Bytes

namespace Chunk

theorem Kind.exists_marker_iff {x : UInt8} :
    (∃ k : Kind, x = k.marker) ↔ ∃ c ∈ ['!', '=', '@'], x = c.toUInt8 := by
  constructor
  · rintro ⟨k, rfl⟩
    cases k with
    | data => exact ⟨'!', by simp, rfl⟩
    | lowPriority => exact ⟨'=', by simp, rfl⟩
    | ack => exact ⟨'@', by simp, rfl⟩
  · rintro ⟨c, hc, rfl⟩
    rcases List.mem_cons.mp hc with rfl | hc
    · exact ⟨.data, rfl⟩
    rcases List.mem_cons.mp hc with rfl | hc
    · exact ⟨.lowPriority, rfl⟩
    obtain rfl := List.mem_singleton.mp hc
    exact ⟨.ack, rfl⟩

namespace Header

/-- Bytes with the parts of a header at the places of the format. -/
structure LaidOut (h : Header) (b : Bytes) : Prop where
  long : size ≤ b.length
  marker : b.head? = some h.kind.marker
  sequence : b.numberAt 1 8 = h.sequence.toNat
  total : b.numberAt 9 2 = h.total.toNat
  index : b.numberAt 11 2 = h.index.toNat

section

variable {h : Header} {b : Bytes}

/-- A marker in front of enough bytes makes them a header, though not yet a valid one. -/
theorem exists_laidOut {k : Kind} (hlong : size ≤ b.length) (hmarker : b.head? = some k.marker) :
    ∃ h, LaidOut h b := by
  unfold size at hlong
  refine ⟨⟨k, .ofNat (b.numberAt 1 8), .ofNat (b.numberAt 9 2), .ofNat (b.numberAt 11 2)⟩,
    hlong, hmarker, ?_, ?_, ?_⟩
  · exact (UInt64.toNat_ofNat_of_lt' (Bytes.numberAt_lt (by omega))).symm
  · exact (UInt16.toNat_ofNat_of_lt' (Bytes.numberAt_lt (by omega))).symm
  · exact (UInt16.toNat_ofNat_of_lt' (Bytes.numberAt_lt (by omega))).symm

theorem LaidOut.take_eq_encode (hl : h.LaidOut b) : b.take size = h.encode := by
  have hlong : 13 ≤ b.length := hl.long
  have hfirst : b.take 1 = [h.kind.marker] := by
    rw [List.take_one, hl.marker]
    rfl
  have hsequence : Bytes.ofNat 8 (b.numberAt 1 8) = (b.drop 1).take 8 :=
    Bytes.ofNat_numberAt (by omega)
  have htotal : Bytes.ofNat 2 (b.numberAt 9 2) = (b.drop 9).take 2 :=
    Bytes.ofNat_numberAt (by omega)
  have hindex : Bytes.ofNat 2 (b.numberAt 11 2) = (b.drop 11).take 2 :=
    Bytes.ofNat_numberAt (by omega)
  calc b.take size
      = b.take 1 ++ (b.drop 1).take 8 ++ (b.drop 9).take 2 ++ (b.drop 11).take 2 := by
        rw [show size = 1 + 8 + 2 + 2 from rfl, List.take_add, List.take_add, List.take_add]
    _ = h.encode := by
        rw [hfirst, ← hsequence, ← htotal, ← hindex, hl.sequence, hl.total, hl.index]
        rfl

theorem laidOut_packet (h : Header) (payload : Bytes) : h.LaidOut (packet h payload) := by
  have hlong : 13 ≤ (packet h payload).length := by
    rw [length_packet, size]
    omega
  have hnumber {start width n : Nat} (hwithin : start + width ≤ 13)
      (hslice : ((packet h payload).drop start).take width = Bytes.ofNat width n)
      (hn : n < 256 ^ width) : (packet h payload).numberAt start width = n := by
    rw [← Bytes.toNat_slice (by omega), hslice, Bytes.toNat_ofNat, Nat.mod_eq_of_lt hn]
  refine ⟨hlong, rfl, ?_, ?_, ?_⟩
  · exact hnumber (by omega) rfl h.sequence.toNat_lt
  · exact hnumber (by omega) rfl h.total.toNat_lt
  · exact hnumber (by omega) rfl h.index.toNat_lt

/-- The header that is read is the one that is laid out, and the payload is what follows. -/
theorem decode_eq_ok_iff_laidOut {rest : Bytes} :
    decode b = .ok (h, rest) ↔ h.LaidOut b ∧ h.Valid ∧ rest = b.drop size := by
  rw [decode_eq_ok_iff]
  constructor
  · rintro ⟨hv, rfl⟩
    exact ⟨laidOut_packet h rest, hv, (List.drop_left' h.length_encode).symm⟩
  · rintro ⟨hl, hv, rfl⟩
    refine ⟨hv, ?_⟩
    rw [packet, ← hl.take_eq_encode, List.take_append_drop]

theorem valid_iff : h.Valid ↔ 1 ≤ h.total ∧ h.index < h.total := by
  unfold Valid
  rw [UInt16.lt_iff_toNat_lt, UInt16.le_iff_toNat_le]
  exact ⟨fun hbelow => ⟨Nat.one_le_of_lt hbelow, hbelow⟩, fun ⟨_, hbelow⟩ => hbelow⟩

/-- Which bytes can be read is decided by their length, their first one, and the two numbers at
the end of the header. -/
theorem exists_decode_iff :
    (∃ h rest, decode b = .ok (h, rest)) ↔
      size ≤ b.length ∧ (∃ c ∈ ['!', '=', '@'], b.head? = some c.toUInt8) ∧
        b.numberAt 9 2 ≠ 0 ∧ b.numberAt 11 2 < b.numberAt 9 2 := by
  constructor
  · rintro ⟨h, rest, hdecode⟩
    obtain ⟨hl, hv, _⟩ := decode_eq_ok_iff_laidOut.mp hdecode
    obtain ⟨c, hc, hmarker⟩ := Kind.exists_marker_iff.mp ⟨h.kind, rfl⟩
    have hbelow : h.index.toNat < h.total.toNat := UInt16.lt_iff_toNat_lt.mp hv
    rw [hl.total, hl.index]
    exact ⟨hl.long, ⟨c, hc, hmarker ▸ hl.marker⟩, Nat.ne_of_gt (Nat.zero_lt_of_lt hbelow), hbelow⟩
  · rintro ⟨hlong, ⟨c, hc, hhead⟩, _, hbelow⟩
    obtain ⟨k, hk⟩ := Kind.exists_marker_iff.mpr ⟨c, hc, rfl⟩
    obtain ⟨h, hl⟩ := exists_laidOut hlong (hk ▸ hhead)
    rw [hl.total, hl.index] at hbelow
    exact ⟨h, _, decode_eq_ok_iff_laidOut.mpr ⟨hl, UInt16.lt_iff_toNat_lt.mpr hbelow, rfl⟩⟩

end

/-- A chunk is 13 bytes longer than its payload, and is read back as its header and its payload
exactly if the header is valid. Bytes can be read exactly if they start with a valid header; that
header is written as it stands there, and its acknowledgement can be read in turn. -/
theorem legible_decode :
    (∀ (h : Header) (payload : Bytes),
      (packet h payload).length = payload.length + 13 ∧
      (decode (packet h payload) = .ok (h, payload) ↔ 1 ≤ h.total ∧ h.index < h.total)) ∧
    ∀ b : Bytes,
      ((∃ h rest, decode b = .ok (h, rest)) ↔
        13 ≤ b.length ∧ (∃ c ∈ ['!', '=', '@'], b.head? = some c.toUInt8) ∧
          b.numberAt 9 2 ≠ 0 ∧ b.numberAt 11 2 < b.numberAt 9 2) ∧
      ∀ (h : Header) (rest : Bytes), decode b = .ok (h, rest) →
        h.LaidOut b ∧ h.encode = b.take 13 ∧ rest = b.drop 13 ∧
          decode h.toAck.encode = .ok (⟨.ack, h.sequence, h.total, h.index⟩, []) := by
  refine ⟨fun h payload => ⟨?_, ?_⟩, fun b => ⟨exists_decode_iff, fun h rest hdecode => ?_⟩⟩
  · rw [length_packet, Nat.add_comm]
    rfl
  · rw [decode_eq_ok_iff, and_iff_left rfl, ← valid_iff]
  · obtain ⟨hl, hv, hrest⟩ := decode_eq_ok_iff_laidOut.mp hdecode
    have hack : decode (packet h.toAck []) = .ok (h.toAck, []) := decode_packet (valid_toAck hv) []
    rw [packet, List.append_nil] at hack
    exact ⟨hl, hl.take_eq_encode.symm, hrest, hack⟩

/-- Numbers of several bytes, in a chunk that asks for no acknowledgement. -/
theorem legible_lowPriority :
    let b : Bytes := [0x3d, 1, 2, 3, 4, 5, 6, 7, 8, 1, 44, 1, 43, 9]
    let h : Header := ⟨.lowPriority, 0x0102030405060708, 300, 299⟩
    decode b = .ok (h, [9]) ∧ h.LaidOut b ∧ h.encode = b.take 13 ∧ [9] = b.drop 13 ∧
      decode h.toAck.encode = .ok (⟨.ack, h.sequence, h.total, h.index⟩, []) := by
  intro b h
  have hdecode : decode b = .ok (h, [9]) :=
    decode_eq_ok_iff.mpr ⟨valid_iff.mpr ⟨by decide, by decide⟩, by decide⟩
  exact ⟨hdecode, (legible_decode.2 b).2 h [9] hdecode⟩

end Header

end Chunk

end Courier
