import Courier.Net.Ip
import Courier.Text.Integer

/-!
The text of internet addresses. Printing is canonical: lower case, no leading
zeros, the longest run of at least two zero groups (the first of equals) written
as `::`, and dotted octets only for a mapped address of the older family.
Reading accepts every text of the grammar, not only canonical ones, and has to
use up the whole text.
-/

namespace Courier

/-! ## Printing -/

namespace Ip

def hexText (g : UInt16) : List Char := Nat.toDigits 16 g.toNat

/-- Groups with colons between them. -/
def groupsText : List UInt16 → List Char
  | [] => []
  | [g] => hexText g
  | g :: rest => hexText g ++ ':' :: groupsText rest

/-- The length of the run of zeros at the front. -/
def zeroRun (gs : List UInt16) : Nat := (gs.takeWhile (· == 0)).length

/-- Start and length of the longest run of zeros, the first of equals. -/
def longestZeroRun : List UInt16 → Nat × Nat
  | [] => (0, 0)
  | g :: rest =>
    let (start, length) := longestZeroRun rest
    let here := zeroRun (g :: rest)
    if length ≤ here then (0, here) else (start + 1, length)

def octetsText (a b c d : UInt8) : List Char :=
  let digits (x : UInt8) := Nat.toDigits 10 x.toNat
  digits a ++ '.' :: digits b ++ '.' :: digits c ++ '.' :: digits d

/-- The octets of an address of the older family inside one of the newer. -/
def mapped? (gs : List UInt16) : Option (UInt8 × UInt8 × UInt8 × UInt8) :=
  match gs with
  | [0, 0, 0, 0, 0, 0xffff, hi, lo] =>
    some ((hi >>> 8).toUInt8, hi.toUInt8, (lo >>> 8).toUInt8, lo.toUInt8)
  | _ => none

def groupsCanonical (gs : List UInt16) : List Char :=
  match mapped? gs with
  | some (a, b, c, d) => "::ffff:".toList ++ octetsText a b c d
  | none =>
    let (start, length) := longestZeroRun gs
    if length ≤ 1 then groupsText gs
    else groupsText (gs.take start) ++ "::".toList ++ groupsText (gs.drop (start + length))

def toChars : Ip → List Char
  | v4 a b c d => octetsText a b c d
  | v6 groups => groupsCanonical groups.toList

def text (ip : Ip) : String := String.ofList ip.toChars

/-! ## Reading -/

/-- A number at the front of a text: all digits that stand there, at least one
and at most `width`, with a value of at most `limit`. -/
def readNumber (radix : Nat) (width : Option Nat) (limit : Nat) (leadingZeros : Bool)
    (cs : List Char) : Option (Nat × List Char) :=
  let isDigit (c : Char) := (Text.digit? radix c).isSome
  let digits := cs.takeWhile isDigit
  let value := Text.digitsValue radix digits
  if digits = [] then none
  else if width.any (· < digits.length) then none
  else if !leadingZeros && digits.head? == some '0' && digits.length > 1 then none
  else if limit < value then none
  else some (value, cs.dropWhile isDigit)

/-- The rest of a text that starts with a given character. -/
def after (c : Char) : List Char → Option (List Char)
  | d :: rest => if c = d then some rest else none
  | [] => none

def readOctet (cs : List Char) : Option (UInt8 × List Char) :=
  (readNumber 10 (some 3) 255 false cs).map fun (n, rest) => (UInt8.ofNat n, rest)

def readOctets (cs : List Char) : Option ((UInt8 × UInt8 × UInt8 × UInt8) × List Char) := do
  let (a, cs) ← readOctet cs
  let (b, cs) ← after '.' cs >>= readOctet
  let (c, cs) ← after '.' cs >>= readOctet
  let (d, cs) ← after '.' cs >>= readOctet
  pure ((a, b, c, d), cs)

def readGroup (cs : List Char) : Option (UInt16 × List Char) :=
  (readNumber 16 (some 4) 65535 true cs).map fun (n, rest) => (UInt16.ofNat n, rest)

def pairGroup (hi lo : UInt8) : UInt16 := UInt16.ofNat (hi.toNat * 256 + lo.toNat)

/-- As many groups as stand at the front, with a colon before each but the
first, and at most `room` of them. Dotted octets fill the last two places and
end the list; the flag tells that they did. -/
def readGroups (first : Bool) : (room : Nat) → List Char → List UInt16 × Bool × List Char
  | 0, cs => ([], false, cs)
  | room + 1, cs =>
    let start := if first then some cs else after ':' cs
    match if room = 0 then none else start >>= readOctets with
    | some ((a, b, c, d), rest) => ([pairGroup a b, pairGroup c d], true, rest)
    | none =>
      match start >>= readGroup with
      | none => ([], false, cs)
      | some (g, rest) =>
        let (gs, dotted, rest) := readGroups false room rest
        (g :: gs, dotted, rest)

/-- Eight groups, where `::` may stand for one or more groups of zero. -/
def readV6 (cs : List Char) : Option (List UInt16 × List Char) :=
  let (head, dotted, rest) := readGroups true 8 cs
  if head.length = 8 then some (head, rest)
  else if dotted then none
  else do
    let rest ← after ':' rest >>= after ':'
    let (tail, _, rest) := readGroups true (7 - head.length) rest
    pure (head ++ List.replicate (8 - head.length - tail.length) 0 ++ tail, rest)

/-- Eight groups as an address. -/
def ofGroups? (gs : List UInt16) : Option Ip :=
  if h : gs.length = 8 then some (v6 ⟨gs.toArray, by simpa using h⟩) else none

/-- An address at the front of a text. -/
def read (cs : List Char) : Option (Ip × List Char) :=
  match readOctets cs with
  | some ((a, b, c, d), rest) => some (v4 a b c d, rest)
  | none => do
    let (gs, rest) ← readV6 cs
    let ip ← ofGroups? gs
    pure (ip, rest)

/-- The address that the whole text is. -/
def ofChars? (cs : List Char) : Option Ip :=
  match read cs with
  | some (ip, []) => some ip
  | _ => none

def ofText? (s : String) : Option Ip := ofChars? s.toList

end Ip

namespace SocketAddr

def portText (p : UInt16) : List Char := Nat.toDigits 10 p.toNat

/-- `address:port`, with brackets around an address that has colons itself. -/
def toChars (a : SocketAddr) : List Char :=
  match a.ip with
  | .v4 .. => a.ip.toChars ++ ':' :: portText a.port
  | .v6 _ =>
    let scope := if a.scope = 0 then [] else '%' :: Nat.toDigits 10 a.scope.toNat
    '[' :: a.ip.toChars ++ scope ++ ']' :: ':' :: portText a.port

def text (a : SocketAddr) : String := String.ofList a.toChars

def readPort (cs : List Char) : Option UInt16 :=
  match Ip.after ':' cs >>= Ip.readNumber 10 none 65535 true with
  | some (n, []) => some (UInt16.ofNat n)
  | _ => none

def readScope (cs : List Char) : Option (UInt32 × List Char) :=
  match cs with
  | '%' :: rest =>
    (Ip.readNumber 10 none 0xffffffff true rest).map fun (n, rest) => (UInt32.ofNat n, rest)
  | _ => some (0, cs)

def ofChars? (cs : List Char) : Option SocketAddr :=
  match Ip.readOctets cs with
  | some ((a, b, c, d), rest) => (readPort rest).map fun p => ⟨.v4 a b c d, p, 0⟩
  | none => do
    let (gs, cs) ← Ip.after '[' cs >>= Ip.readV6
    let ip ← Ip.ofGroups? gs
    let (scope, cs) ← readScope cs
    let port ← Ip.after ']' cs >>= readPort
    pure ⟨ip, port, scope⟩

def ofText? (s : String) : Option SocketAddr := ofChars? s.toList

end SocketAddr

end Courier
