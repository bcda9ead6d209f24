import Courier.Chunk.Header
import Mathlib.Algebra.Group.Nat.Defs
import Mathlib.Data.List.Induction

/-!
Reading back what was written: fixed-width numbers, the header of a chunk, and a
whole chunk. A header is readable if its index lies below its count of chunks, and
nothing else can be read.
-/

namespace Courier

theorem Bytes.toNat_append_singleton (b : Bytes) (x : UInt8) :
    toNat (b ++ [x]) = toNat b * 256 + x.toNat := by
  simp [toNat]

theorem Bytes.toNat_ofNat (w n : Nat) : toNat (ofNat w n) = n % 256 ^ w := by
  induction w generalizing n with
  | zero => simp [ofNat, toNat, Nat.mod_one]
  | succ w ih =>
    have hp : n % 256 ^ (w + 1) = n % 256 + 256 * (n / 256 % 256 ^ w) := by
      rw [pow_succ', Nat.mod_mul]
    rw [ofNat, toNat_append_singleton, ih, UInt8.toNat_ofNat', hp]
    omega

theorem Bytes.toNat_lt (b : Bytes) : toNat b < 256 ^ b.length := by
  induction b using List.reverseRecOn with
  | nil => decide
  | append_singleton b x ih =>
    have hx := x.toNat_lt
    rw [toNat_append_singleton, List.length_append, List.length_singleton, Nat.pow_succ]
    omega

theorem Bytes.ofNat_toNat (b : Bytes) : ofNat b.length (toNat b) = b := by
  induction b using List.reverseRecOn with
  | nil => rfl
  | append_singleton b x ih =>
    have hx := x.toNat_lt
    have hlow : UInt8.ofNat (toNat b * 256 + x.toNat) = x := by
      apply UInt8.toNat_inj.mp
      rw [UInt8.toNat_ofNat']
      omega
    rw [toNat_append_singleton, List.length_append, List.length_singleton, ofNat, hlow,
      show (toNat b * 256 + x.toNat) / 256 = toNat b by omega, ih]

theorem Chunk.Kind.ofMarker?_eq_some {x : UInt8} {k : Kind} (hk : ofMarker? x = some k) :
    x = k.marker := by
  unfold ofMarker? at hk
  split at hk
  · rename_i hx
    cases hk
    exact hx
  split at hk
  · rename_i hx
    cases hk
    exact hx
  split at hk
  · rename_i hx
    cases hk
    exact hx
  · cases hk

namespace Chunk.Header

theorem readNumber_append (w n : Nat) (rest : Bytes) :
    readNumber w (Bytes.ofNat w n ++ rest) = .ok (n % 256 ^ w, rest) := by
  have hl : (Bytes.ofNat w n).length = w := Bytes.length_ofNat w n
  unfold readNumber
  rw [if_neg (by simp), List.take_left' hl, List.drop_left' hl, Bytes.toNat_ofNat]

theorem readNumber_eq_ok {w n : Nat} {b rest : Bytes} (hr : readNumber w b = .ok (n, rest)) :
    n < 256 ^ w ∧ b = Bytes.ofNat w n ++ rest := by
  unfold readNumber at hr
  split at hr
  · cases hr
  · cases hr
    have hlength : (b.take w).length = w := List.length_take_of_le (by omega)
    have hlt := Bytes.toNat_lt (b.take w)
    have hbytes := Bytes.ofNat_toNat (b.take w)
    rw [hlength] at hlt hbytes
    exact ⟨hlt, by rw [hbytes, List.take_append_drop]⟩

theorem readNumber_marker (k : Kind) (rest : Bytes) :
    readNumber 1 (k.marker :: rest) = .ok (k.marker.toNat, rest) := by
  simp [readNumber, Bytes.toNat]

/-- What every chunk on the wire promises: its index lies below the count. -/
def Valid (h : Header) : Prop := h.index < h.total

theorem decode_packet {h : Header} (hv : h.Valid) (payload : Bytes) :
    decode (packet h payload) = .ok (h, payload) := by
  have ht : h.total.toNat % 256 ^ 2 = h.total.toNat := Nat.mod_eq_of_lt h.total.toNat_lt
  have hi : h.index.toNat % 256 ^ 2 = h.index.toNat := Nat.mod_eq_of_lt h.index.toNat_lt
  have hs : h.sequence.toNat % 256 ^ 8 = h.sequence.toNat := Nat.mod_eq_of_lt h.sequence.toNat_lt
  have hlt : h.index.toNat < h.total.toNat := UInt16.lt_iff_toNat_lt.mp hv
  unfold decode packet encode
  simp only [List.cons_append, List.append_assoc, readNumber_marker, readNumber_append,
    UInt8.ofNat_toNat, Kind.ofMarker?_marker, hs, ht, hi, bind, Except.bind]
  rw [if_neg (by omega), if_neg (by omega)]
  simp [pure, Except.pure]

theorem bind_eq_ok {ε α β : Type} {x : Except ε α} {f : α → Except ε β} {r : β}
    (h : x >>= f = .ok r) : ∃ a, x = .ok a ∧ f a = .ok r := by
  cases x with
  | error => cases h
  | ok a => exact ⟨a, rfl, h⟩

/-- The packets are exactly what can be read. -/
theorem decode_eq_ok_iff {b payload : Bytes} {h : Header} :
    decode b = .ok (h, payload) ↔ h.Valid ∧ b = packet h payload := by
  constructor
  · intro hd
    unfold decode at hd
    obtain ⟨⟨marker, b₁⟩, hread₁, hd⟩ := bind_eq_ok hd
    dsimp only at hd
    split at hd
    · rename_i kind hkind
      obtain ⟨⟨sequence, b₂⟩, hread₂, hd⟩ := bind_eq_ok hd
      obtain ⟨⟨total, b₃⟩, hread₃, hd⟩ := bind_eq_ok hd
      obtain ⟨⟨index, b₄⟩, hread₄, hd⟩ := bind_eq_ok hd
      dsimp only at hd
      split at hd
      · cases hd
      split at hd
      · cases hd
      rename_i hbelow
      cases hd
      obtain ⟨_, rfl⟩ := readNumber_eq_ok hread₁
      obtain ⟨hsequence, rfl⟩ := readNumber_eq_ok hread₂
      obtain ⟨htotal, rfl⟩ := readNumber_eq_ok hread₃
      obtain ⟨hindex, rfl⟩ := readNumber_eq_ok hread₄
      have hs : (UInt64.ofNat sequence).toNat = sequence := UInt64.toNat_ofNat_of_lt' hsequence
      have ht : (UInt16.ofNat total).toNat = total := UInt16.toNat_ofNat_of_lt' htotal
      have hi : (UInt16.ofNat index).toNat = index := UInt16.toNat_ofNat_of_lt' hindex
      constructor
      · show UInt16.ofNat index < UInt16.ofNat total
        rw [UInt16.lt_iff_toNat_lt, ht, hi]
        exact Nat.not_le.mp hbelow
      · have hfirst : Bytes.ofNat 1 marker = [kind.marker] := by
          rw [← Kind.ofMarker?_eq_some hkind]
          rfl
        unfold packet encode
        rw [hs, ht, hi, hfirst]
        simp only [List.cons_append, List.nil_append, List.append_assoc]
    · cases hd
  · rintro ⟨hv, rfl⟩
    exact decode_packet hv payload

theorem packet_inj {h h' : Header} (hv : h.Valid) (hv' : h'.Valid) {payload payload' : Bytes}
    (heq : packet h payload = packet h' payload') : h = h' ∧ payload = payload' := by
  have := decode_packet hv payload
  rw [heq, decode_packet hv' payload'] at this
  cases this
  exact ⟨rfl, rfl⟩

theorem length_encode (h : Header) : h.encode.length = size := by
  simp [encode, size]

theorem length_packet (h : Header) (payload : Bytes) :
    (packet h payload).length = size + payload.length := by
  simp [packet, length_encode]

theorem valid_toAck {h : Header} (hv : h.Valid) : h.toAck.Valid := hv

theorem isLast?_eq_none_or (h : Header) :
    h.isLast? = none ∨ h.isLast? = some (h.index.toNat + 1 == h.total.toNat) := by
  unfold isLast?
  split
  · exact Or.inr rfl
  · exact Or.inl rfl

/-- The index of a chunk on the wire is never the largest 16-bit number, so it is
known whether the chunk is the final one. -/
theorem isLast?_eq {h : Header} (hv : h.Valid) :
    h.isLast? = some (h.index.toNat + 1 == h.total.toNat) := by
  have hlt : h.index.toNat < h.total.toNat := UInt16.lt_iff_toNat_lt.mp hv
  have := h.total.toNat_lt
  exact if_pos (by omega)

end Chunk.Header

end Courier
