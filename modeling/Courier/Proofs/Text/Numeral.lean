import Courier.Proofs.Text.Integer
import Mathlib.Data.List.Induction

/-!
Which texts are read as numbers. Main statement: a text is read as a natural number within a
limit exactly if it is decimal digits with this value, with or without a plus sign.
-/

namespace Courier.Text

/-- ASCII digits, at least one, and their value. -/
structure Decimal (cs : List Char) (n : Nat) : Prop where
  nonempty : cs ≠ []
  ascii : ∀ c ∈ cs, c.isDigit
  value : Nat.ofDigitChars 10 cs 0 = n

/-- A decimal number of at most `limit`. A plus sign may stand before it. -/
inductive Numeral (limit : Nat) : List Char → Nat → Prop
  | bare {cs : List Char} {n : Nat} : Decimal cs n → n ≤ limit → Numeral limit cs n
  | signed {cs : List Char} {n : Nat} : Decimal cs n → n ≤ limit → Numeral limit ('+' :: cs) n

section

variable {limit n : Nat} {cs : List Char}

theorem digit?_ten (c : Char) :
    digit? 10 c = if c.isDigit then some (c.toNat - 48) else none := by
  have hdigit : c.isDigit = true ↔ 48 ≤ c.toNat ∧ c.toNat ≤ 57 := Char.isDigit_iff_toNat
  unfold digit?
  grind

theorem digitsValue_ten (h : ∀ c ∈ cs, c.isDigit) :
    digitsValue 10 cs = Nat.ofDigitChars 10 cs 0 := by
  induction cs using List.reverseRecOn with
  | nil => rfl
  | append_singleton cs c ih =>
    have hc : c.isDigit = true := h c (by simp)
    rw [digitsValue_concat, ih fun d hd => h d (List.mem_append_left _ hd), digit?_ten, if_pos hc,
      Nat.ofDigitChars, Nat.ofDigitChars, List.foldl_append, Nat.mul_comm]
    rfl

theorem digits?_eq_some_iff : digits? cs = some n ↔ Decimal cs n := by
  have hall : (cs.all fun c => (digit? 10 c).isSome) = true ↔ ∀ c ∈ cs, c.isDigit = true := by
    simp only [List.all_eq_true, digit?_ten, Option.isSome_ite]
  unfold digits?
  constructor
  · intro h
    split at h
    · next hdigits =>
      have hascii := hall.mp hdigits.2
      exact ⟨hdigits.1, hascii, (digitsValue_ten hascii).symm.trans (Option.some.inj h)⟩
    · cases h
  · intro h
    rw [if_pos ⟨h.nonempty, hall.mpr h.ascii⟩, digitsValue_ten h.ascii, h.value]

theorem natural?_eq_some_iff : natural? limit cs = some n ↔ Numeral limit cs n := by
  unfold natural?
  dsimp only
  rw [Option.filter_eq_some_iff, decide_eq_true_eq]
  constructor
  · rintro ⟨hvalue, hle⟩
    split at hvalue
    · exact .signed (digits?_eq_some_iff.mp hvalue) hle
    · exact .bare (digits?_eq_some_iff.mp hvalue) hle
  · rintro (⟨hdigits, hle⟩ | ⟨hdigits, hle⟩)
    · refine ⟨?_, hle⟩
      split
      · -- a plus sign is no digit
        exact absurd (hdigits.ascii '+' List.mem_cons_self) (by decide)
      · exact digits?_eq_some_iff.mpr hdigits
    · exact ⟨digits?_eq_some_iff.mpr hdigits, hle⟩

end

end Courier.Text
