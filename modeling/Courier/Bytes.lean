/-!
Byte strings, and numbers written as a fixed count of bytes, most significant
first.
-/

namespace Courier

/-- What travels on a wire and in a message. -/
abbrev Bytes := List UInt8

/-- The largest value of a machine word. -/
def wordMax : Nat := 0xffffffffffffffff

/-- The largest size of one object in memory. -/
def sizeMax : Nat := 0x7fffffffffffffff

namespace Bytes

/-- The UTF-8 bytes of a text. -/
def ofText (s : String) : Bytes := s.toUTF8.toList

/-- The low `width` bytes of `n`, most significant first. -/
def ofNat : (width : Nat) → Nat → Bytes
  | 0, _ => []
  | w + 1, n => ofNat w (n / 256) ++ [UInt8.ofNat n]

/-- The number whose bytes are given, most significant first. -/
def toNat (b : Bytes) : Nat := b.foldl (fun n x => n * 256 + x.toNat) 0

@[simp] theorem length_ofNat (w n : Nat) : (ofNat w n).length = w := by
  induction w generalizing n with
  | zero => rfl
  | succ w ih => simp [ofNat, ih]

end Bytes

end Courier
