import Courier.Text.Integer
import Mathlib.Data.List.Basic

/-!
Digits that are read back. Main statement: the decimal digits of a number within the limit are
read as that number.
-/

namespace Courier.Text

section

variable {radix n d : Nat}

theorem digit?_digitChar (hradix : radix ≤ 16) (hd : d < radix) :
    digit? radix d.digitChar = some d := by
  have h : ∀ r ≤ 16, ∀ d < r, digit? r d.digitChar = some d := by decide
  exact h radix hradix d hd

/-- A digit is one in every larger radix. -/
theorem digit?_eq_none_of_le {small : Nat} {c : Char} (hle : small ≤ radix)
    (h : digit? radix c = none) : digit? small c = none := by
  unfold digit? at h ⊢
  dsimp only at h ⊢
  split_ifs at h ⊢ <;> omega

theorem digitsValue_concat (radix : Nat) (cs : List Char) (c : Char) :
    digitsValue radix (cs ++ [c]) = digitsValue radix cs * radix + (digit? radix c).getD 0 := by
  rw [digitsValue, List.foldl_append, ← digitsValue]
  rfl

theorem digitsValue_toDigits (hbase : 1 < radix) (hradix : radix ≤ 16) (n : Nat) :
    digitsValue radix (Nat.toDigits radix n) = n := by
  induction n using Nat.strongRecOn with
  | ind n ih =>
    rw [Nat.toDigits_eq_if hbase]
    split
    · next hsmall =>
      simp [digitsValue, digit?_digitChar hradix hsmall]
    · next hlarge =>
      have hdiv : n / radix < n := Nat.div_lt_self (by omega) hbase
      rw [digitsValue_concat, ih _ hdiv,
        digit?_digitChar hradix (Nat.mod_lt n (by omega)), Option.getD_some]
      exact Nat.div_add_mod' n radix

theorem isSome_digit?_of_mem_toDigits {c : Char} (hbase : 1 < radix) (hradix : radix ≤ 16)
    (hc : c ∈ Nat.toDigits radix n) : (digit? radix c).isSome = true := by
  induction n using Nat.strongRecOn with
  | ind n ih =>
    rw [Nat.toDigits_eq_if hbase] at hc
    split at hc
    · next hsmall =>
      rw [List.mem_singleton.mp hc, digit?_digitChar hradix hsmall]
      rfl
    · next hlarge =>
      rcases List.mem_append.mp hc with hfront | hlast
      · exact ih _ (Nat.div_lt_self (by omega) hbase) hfront
      · rw [List.mem_singleton.mp hlast, digit?_digitChar hradix (Nat.mod_lt n (by omega))]
        rfl

/-- Only zero itself starts with a zero. -/
theorem eq_zero_of_head?_toDigits (hbase : 1 < radix) (hradix : radix ≤ 16)
    (h : (Nat.toDigits radix n).head? = some '0') : n = 0 := by
  induction n using Nat.strongRecOn with
  | ind n ih =>
    rw [Nat.toDigits_eq_if hbase] at h
    split at h
    · next hsmall =>
      have hdigit := digit?_digitChar hradix hsmall
      rw [Option.some.inj h, show digit? radix '0' = digit? radix (Nat.digitChar 0) from rfl,
        digit?_digitChar hradix (by omega)] at hdigit
      exact (Option.some.inj hdigit).symm
    · next hlarge =>
      rw [List.head?_append_of_ne_nil _ Nat.toDigits_ne_nil] at h
      have hzero := ih _ (Nat.div_lt_self (by omega) hbase) h
      have hpos : 0 < n / radix := Nat.div_pos (by omega) (by omega)
      omega

theorem not_mem_toDigits {c : Char} (hbase : 1 < radix) (hradix : radix ≤ 16)
    (hc : digit? radix c = none) : c ∉ Nat.toDigits radix n := fun hmem => by
  have hsome := isSome_digit?_of_mem_toDigits hbase hradix hmem
  rw [hc] at hsome
  cases hsome

theorem digits?_toDigits (n : Nat) : digits? (Nat.toDigits 10 n) = some n := by
  have hall : (Nat.toDigits 10 n).all (fun c => (digit? 10 c).isSome) = true :=
    List.all_eq_true.mpr fun c => isSome_digit?_of_mem_toDigits (by decide) (by decide)
  rw [digits?, if_pos ⟨Nat.toDigits_ne_nil, hall⟩, digitsValue_toDigits (by decide) (by decide)]

theorem natural?_toDigits {limit : Nat} (h : n ≤ limit) :
    natural? limit (Nat.toDigits 10 n) = some n := by
  unfold natural?
  dsimp only
  split
  · next rest hplus =>
    have hmem : '+' ∈ Nat.toDigits 10 n := hplus ▸ List.mem_cons_self
    exact absurd hmem (not_mem_toDigits (by decide) (by decide) rfl)
  · rw [digits?_toDigits, Option.filter_some, if_pos (decide_eq_true h)]

end

end Courier.Text
