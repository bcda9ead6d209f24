/-!
Lengths of time and points in time, both counted in nanoseconds, and the short
text of a length of time: the largest unit that fits it once, with as many
decimals as are needed.
-/

namespace Courier

/-- Nanoseconds since the clock started. -/
abbrev Instant := Nat

structure Duration where
  nanos : Nat
  deriving DecidableEq, Repr

namespace Duration

def perSecond : Nat := 1000000000

def perMilli : Nat := 1000000

/-- The longest duration: seconds are a machine word. -/
def maxNanos : Nat := 0x10000000000000000 * perSecond - 1

/-- The clock counts 63 bits of seconds, and has run for a while already. It does
not reach an instant that is this far away. -/
def beyondClock (d : Duration) : Bool := 0x7fffffffffff0000 * perSecond ≤ d.nanos

def ofSeconds (n : Nat) : Duration := ⟨n * perSecond⟩

def ofMillis (n : Nat) : Duration := ⟨n * perMilli⟩

/-- Whole seconds and further nanoseconds, if that is not too long. -/
def ofParts? (seconds nanos : Nat) : Option Duration :=
  let n := seconds * perSecond + nanos
  if n ≤ maxNanos then some ⟨n⟩ else none

/-- `n` times the duration, if that is not too long. -/
def times? (d : Duration) (n : Nat) : Option Duration :=
  if d.nanos * n ≤ maxNanos then some ⟨d.nanos * n⟩ else none

/-- A fraction of `places` decimal digits after its point, without the zeros
at its end; nothing at all for zero. -/
def fraction (places value : Nat) : String :=
  if value = 0 then ""
  else
    let digits := Nat.toDigits 10 value
    let padded := List.replicate (places - digits.length) '0' ++ digits
    "." ++ String.ofList (padded.reverse.dropWhile (· == '0')).reverse

/-- The text in a unit of `size` nanoseconds, which has `places` decimals. -/
def inUnit (d : Duration) (size places : Nat) (unit : String) : String :=
  toString (d.nanos / size) ++ fraction places (d.nanos % size) ++ unit

/-- For instance `1.5s`, `250ms`, `999.999µs`, `0ns`. -/
def text (d : Duration) : String :=
  if d.nanos ≥ perSecond then d.inUnit perSecond 9 "s"
  else if d.nanos ≥ perMilli then d.inUnit perMilli 6 "ms"
  else if d.nanos ≥ 1000 then d.inUnit 1000 3 "µs"
  else d.inUnit 1 0 "ns"

/-- The end of a sleep of some length. One that the clock does not reach ends after
thirty years. -/
def sleepEnd (d : Duration) (now : Instant) : Instant :=
  now + if d.beyondClock then 30 * 365 * 86400 * perSecond else d.nanos

/-- The first whole millisecond at or after an instant: timers fire only at
whole milliseconds. -/
def ceilMilli (t : Instant) : Instant := (t + (perMilli - 1)) / perMilli * perMilli

end Duration

end Courier
