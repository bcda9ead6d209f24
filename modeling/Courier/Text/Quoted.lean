/-!
One byte shown as a Latin-1 character between single quotes. Characters that
cannot be printed are written as escapes.
-/

namespace Courier.Text

def backslash : Char := Char.ofNat 92

def quote : Char := Char.ofNat 39

/-- What stands between the quotes: a letter escape, the code point in braces
for other characters without a picture of their own, or the character. -/
def escapeByte (b : UInt8) : List Char :=
  let n := b.toNat
  if n == 0 then [backslash, '0']
  else if n == 9 then [backslash, 't']
  else if n == 10 then [backslash, 'n']
  else if n == 13 then [backslash, 'r']
  else if n == 39 || n == 92 then [backslash, Char.ofNat n]
  else if n < 0x20 || (0x7f ≤ n && n ≤ 0xa0) || n == 0xad then
    [backslash, 'u', Char.ofNat 123] ++ Nat.toDigits 16 n ++ [Char.ofNat 125]
  else [Char.ofNat n]

def quoteByte (b : UInt8) : String :=
  String.ofList (quote :: escapeByte b ++ [quote])

end Courier.Text
