/-!
Decimal integers: an optional sign, then ASCII digits only, with a value in a
given range.
-/

namespace Courier.Text

/-- The value of a digit in a radix up to 16. -/
def digit? (radix : Nat) (c : Char) : Option Nat :=
  let n := c.toNat
  let value :=
    if 48 ≤ n && n ≤ 57 then n - 48
    else if 97 ≤ n && n ≤ 102 then n - 87
    else if 65 ≤ n && n ≤ 70 then n - 55
    else radix
  if value < radix then some value else none

/-- The value of a run of digits, most significant first. -/
def digitsValue (radix : Nat) (cs : List Char) : Nat :=
  cs.foldl (fun n c => n * radix + (digit? radix c).getD 0) 0

/-- At least one decimal digit, and nothing else. -/
def digits? (cs : List Char) : Option Nat :=
  if cs ≠ [] ∧ cs.all (fun c => (digit? 10 c).isSome) then some (digitsValue 10 cs) else none

/-- A natural number of at most `limit`; a plus sign may stand before it. -/
def natural? (limit : Nat) (cs : List Char) : Option Nat :=
  let value := match cs with
    | '+' :: rest => digits? rest
    | _ => digits? cs
  value.filter (· ≤ limit)

/-- An integer of `-(limit + 1)` to `limit`; a sign may stand before it. -/
def integer? (limit : Nat) (cs : List Char) : Option Int :=
  match cs with
  | '-' :: rest => ((digits? rest).filter (· ≤ limit + 1)).map fun n => -(n : Int)
  | _ => (natural? limit cs).map Int.ofNat

end Courier.Text
