/-!
The order in which the sources of messages are polled: several polls of the
datagrams, then the connections that peers opened if there is a listener, then
the pooled ones. A call that yields a message leaves off there, and the next call
goes on from that place.
-/

namespace Courier

inductive Source where
  | datagrams
  | inbound
  | outbound
  deriving DecidableEq

/-- Where the next poll looks. -/
inductive Turn where
  /-- the `n`-th poll of the datagrams in this cycle -/
  | datagrams (n : Nat)
  | inbound
  | outbound
  | done
  deriving DecidableEq

namespace Turn

/-- The first state of a cycle. -/
def start : Turn := datagrams 1

def source : Turn → Option Source
  | datagrams _ => some .datagrams
  | inbound => some .inbound
  | outbound => some .outbound
  | done => none

/-- The state after a poll, with `ratio` polls of the datagrams in a cycle. -/
def next (ratio : Nat) (listening : Bool) : Turn → Turn
  | datagrams n =>
    if n < ratio then datagrams (n + 1) else if listening then inbound else outbound
  | inbound => outbound
  | outbound => done
  | done => start

/-- How many polls may follow in this cycle. -/
def rank (ratio : Nat) : Turn → Nat
  | datagrams n => ratio - n + 3
  | inbound => 2
  | outbound => 1
  | done => 0

theorem rank_next_lt (ratio : Nat) (listening : Bool) {s : Turn} (h : s ≠ done) :
    (s.next ratio listening).rank ratio < s.rank ratio := by
  cases s with
  | datagrams n =>
    simp only [next]
    split
    · simp only [rank]; omega
    · split <;> simp only [rank] <;> omega
  | inbound => simp [next, rank]
  | outbound => simp [next, rank]
  | done => exact absurd rfl h

end Turn

variable {σ μ : Type}

/-- Polls at most `fuel` sources until one yields a message or the cycle ends. -/
def pollUpTo (ratio : Nat) (listening : Bool) (poll : Source → σ → Option μ × σ) :
    (fuel : Nat) → Turn → σ → Option μ × Turn × σ
  | 0, s, w => (none, s, w)
  | fuel + 1, s, w =>
    match s.source with
    | none => (none, s, w)
    | some source =>
      let s := s.next ratio listening
      match poll source w with
      | (some message, w) => (some message, s, w)
      | (none, w) => pollUpTo ratio listening poll fuel s w

/-- One call of the application: polls until a source yields a message or the cycle ends. A call
after the end of a cycle starts a new one. -/
def pollRound (ratio : Nat) (listening : Bool) (poll : Source → σ → Option μ × σ)
    (s : Turn) (w : σ) : Option μ × Turn × σ :=
  let s := if s = .done then .start else s
  pollUpTo ratio listening poll (s.rank ratio) s w

end Courier
