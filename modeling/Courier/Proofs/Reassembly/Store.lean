import Courier.Proofs.Reassembly.Buffer
import Courier.Proofs.Reassembly.Calls
import Mathlib.Data.List.Forall2
import Mathlib.Data.List.Induction

/-!
Reassembly with buffers and sets of indices written out, and with arithmetic that halts outside
the range of the machine. A message is entered into the table before its first chunk has passed all
checks, and taken out again if there is no room for it. Main statement: a chunk that is
refused or was here before leaves no trace.
-/

namespace Courier.Reassembly

/-! ## Numbers of the machine -/

namespace Word

def add? (a b : Nat) : Option Nat := if wordMax < a + b then none else some (a + b)

def mul? (a b : Nat) : Option Nat := if wordMax < a * b then none else some (a * b)

def sub? (a b : Nat) : Option Nat := if a < b then none else some (a - b)

theorem add?_of_le {a b : Nat} (h : a + b ≤ wordMax) : add? a b = some (a + b) :=
  if_neg (Nat.not_lt.mpr h)

theorem mul?_of_le {a b : Nat} (h : a * b ≤ wordMax) : mul? a b = some (a * b) :=
  if_neg (Nat.not_lt.mpr h)

theorem sub?_of_le {a b : Nat} (h : b ≤ a) : sub? a b = some (a - b) :=
  if_neg (Nat.not_lt.mpr h)

end Word

/-! ## The table -/

/-- An incomplete message: the header of its first chunk, and what came so far. -/
structure Slot where
  prototype : Chunk.Header
  data : Bytes := []
  received : Std.TreeSet Nat := {}
  length? : Option Nat := none
  lastSeen : Instant

namespace Slot

/-- Copies a chunk to its place in the buffer. -/
def add? (slot : Slot) (index start stop : Nat) (isLast : Bool) (payload : Bytes)
    (now : Instant) : Option Slot := do
  let data ← overwrite? slot.data start stop payload
  some { slot with
    data
    received := slot.received.insert index
    length? := if isLast then some stop else slot.length?
    lastSeen := now }

def message (slot : Slot) : Bytes :=
  match slot.length? with
  | some n => slot.data.take n
  | none => slot.data

end Slot

structure Store where
  chunkSize : Nat
  maxPartialBytes : Nat
  buffered : Nat := 0
  messages : List (Key × Slot) := []
  completed : List (Key × Instant) := []

namespace Store

def find? (s : Store) (key : Key) : Option Slot := s.messages.lookup key

def erase (s : Store) (key : Key) : Store :=
  { s with messages := s.messages.filter (·.1 ≠ key) }

def put (s : Store) (key : Key) (slot : Slot) : Store :=
  { s with messages := (key, slot) :: (s.erase key).messages }

/-- The message of a key, which is entered if it is not in the table. -/
def enter (s : Store) (key : Key) (h : Chunk.Header) (now : Instant) : Slot × Store :=
  match s.find? key with
  | some slot => (slot, s)
  | none =>
    let slot := { prototype := h, lastSeen := now }
    (slot, s.put key slot)

def lengthFault (s : Store) (isLast : Bool) (length : Nat) : Option Reason :=
  if isLast then
    if length = 0 ∨ s.chunkSize < length then some .finalLength else none
  else if length ≠ s.chunkSize then some .fullLength
  else none

/-- Puts a chunk into its message, whose buffer has room for it. -/
def fill? (s : Store) (key : Key) (slot : Slot) (h : Chunk.Header) (start stop : Nat)
    (isLast : Bool) (payload : Bytes) (now : Instant) : Option (Outcome × Store) := do
  let slot ← slot.add? h.index.toNat start stop isLast payload now
  let s := s.put key slot
  if slot.received.size < h.total.toNat then some (.incomplete, s)
  else
    let s := s.erase key
    let buffered ← Word.sub? s.buffered slot.data.length
    some (.complete slot.message,
      { s with
        buffered
        completed := (key, now) :: s.completed })

/-- Makes the buffer of a message longer, for a chunk that ends after it. If there is no room, the
message goes unless it has chunks. -/
def grow? (s : Store) (key : Key) (slot : Slot) (h : Chunk.Header) (start stop : Nat)
    (isLast : Bool) (payload : Bytes) (now : Instant) : Option (Outcome × Store) := do
  let buffered ← Word.add? s.buffered (stop - slot.data.length)
  if s.maxPartialBytes < buffered then
    some (.rejected .bufferLimit, if slot.received.isEmpty then s.erase key else s)
  else if sizeMax < stop then none
  else
    fill? { s with buffered } key { slot with data := stretch slot.data stop } h start stop isLast
      payload now

def accept? (s : Store) (key : Key) (slot : Slot) (h : Chunk.Header) (isLast : Bool)
    (payload : Bytes) (now : Instant) : Option (Outcome × Store) := do
  let start ← Word.mul? h.index.toNat s.chunkSize
  let stop ← Word.add? start payload.length
  if slot.data.length < stop then s.grow? key slot h start stop isLast payload now
  else s.fill? key slot h start stop isLast payload now

/-- Takes in one chunk, or halts. -/
def insert? (s : Store) (sender : SocketAddr) (h : Chunk.Header) (payload : Bytes)
    (now : Instant) : Option (Outcome × Store) :=
  let key := (sender, h.sequence)
  if (s.completed.lookup key).isSome then some (.duplicate, s)
  else if h.kind = .ack then some (.rejected .ackChunk, s)
  else
    match h.isLast? with
    | none => none
    | some isLast =>
      match s.lengthFault isLast payload.length with
      | some reason => some (.rejected reason, s)
      | none =>
        let (slot, s) := s.enter key h now
        if slot.prototype.total ≠ h.total then some (.rejected .totalDiffers, s)
        else if slot.prototype.kind ≠ h.kind then some (.rejected .kindDiffers, s)
        else if slot.received.contains h.index.toNat then some (.duplicate, s)
        else s.accept? key slot h isLast payload now

def purge? (s : Store) (now : Instant) (timeout retention : Duration) : Option (Nat × Store) := do
  let (kept, stale) := s.messages.partition fun (_, slot) => now - slot.lastSeen < timeout.nanos
  let buffered ← stale.foldlM (fun n (_, slot) => Word.sub? n slot.data.length) s.buffered
  let purged ← Word.sub? s.messages.length kept.length
  some (purged,
    { s with
      buffered
      messages := kept
      completed := s.completed.filter fun (_, since) => now - since < retention.nanos })

def step? (s : Store) : Call → Option Store
  | .arrive sender h payload now => (s.insert? sender h payload now).map (·.2)
  | .purge now timeout retention => (s.purge? now timeout retention).map (·.2)

/-- The table after calls, if none of them halts. -/
def run? (chunkSize maxPartialBytes : Nat) (calls : List Call) : Option Store :=
  calls.foldlM step? { chunkSize, maxPartialBytes }

end Store

/-! ## The same table -/

/-- A message written out. -/
structure Slot.Holds (cs : Nat) (slot : Slot) (m : Partial) : Prop where
  total : slot.prototype.total = m.total
  kind : slot.prototype.kind = m.kind
  data : slot.data = m.buffer cs
  received : ∀ i, i ∈ slot.received ↔ i ∈ m.pieces
  length? : slot.length? = m.length?
  lastSeen : slot.lastSeen = m.lastSeen
  laid : m.Laid cs
  extent_le : m.extent ≤ sizeMax

namespace Slot.Holds

variable {cs : Nat} {slot : Slot} {m : Partial}

theorem unseen (cs : Nat) (h : Chunk.Header) (now : Instant) :
    Holds cs { prototype := h, lastSeen := now } (.unseen h now) where
  total := rfl
  kind := rfl
  data := rfl
  received := by simp [Partial.unseen]
  length? := rfl
  lastSeen := rfl
  laid := by constructor <;> simp [Partial.unseen]
  extent_le := Nat.zero_le _

theorem length_data (hh : slot.Holds cs m) : slot.data.length = m.extent := by
  rw [hh.data, hh.laid.length_buffer]

theorem message_eq (hh : slot.Holds cs m) : slot.message = m.data cs := by
  cases hl : m.length? <;> simp only [Slot.message, Partial.data, hh.length?, hh.data, hl]

theorem size_received (hh : slot.Holds cs m) : slot.received.size = m.pieces.size := by
  rw [← Std.TreeMap.length_keys]
  refine size_eq_length (nodup_keys m.pieces) fun i => ?_
  rw [hh.received, Std.TreeMap.mem_keys]

theorem contains_eq (hh : slot.Holds cs m) (i : Nat) :
    slot.received.contains i = m.pieces.contains i := by
  rw [Bool.eq_iff_iff, ← Std.TreeSet.mem_iff_contains, ← Std.TreeMap.mem_iff_contains, hh.received]

/-- One more chunk, once the buffer is long enough. -/
theorem add? (hh : slot.Holds cs m) {i : Nat} {b : Bytes} (hb : b.length ≤ cs)
    (hnew : i ∉ m.pieces) (hstop : i * cs + b.length ≤ sizeMax) (isLast : Bool) (now : Instant) :
    ∃ slot', Slot.add? { slot with data := stretch slot.data (i * cs + b.length) } i (i * cs)
        (i * cs + b.length) isLast b now = some slot' ∧
      slot'.Holds cs (m.add cs i isLast b now) := by
  have hextent := hh.extent_le
  refine ⟨{ slot with
    data := (m.add cs i isLast b now).buffer cs
    received := slot.received.insert i
    length? := if isLast then some (i * cs + b.length) else slot.length?
    lastSeen := now }, ?_, hh.total, hh.kind, rfl, fun j => ?_, ?_, rfl, hh.laid.add hb isLast now,
    ?_⟩
  · unfold Slot.add?
    rw [hh.data, hh.laid.buffer_add hb hnew isLast now]
    rfl
  · show j ∈ slot.received.insert i ↔ j ∈ m.pieces.insert i b
    rw [Std.TreeSet.mem_insert, Std.TreeMap.mem_insert, hh.received]
  · show (if isLast then _ else slot.length?) = if isLast then _ else m.length?
    rw [hh.length?]
  · rw [Partial.extent_add]
    omega

end Slot.Holds

namespace Store

/-- An entry of the table written out. No message is in the table without a chunk. -/
structure Paired (cs : Nat) (x : Key × Slot) (y : Key × Partial) : Prop where
  key : x.1 = y.1
  holds : x.2.Holds cs y.2
  nonempty : 0 < y.2.pieces.size

/-- Both tables have the same messages but for one key. -/
structure Apart (key : Key) (s : Store) (r : Reassembly) : Prop where
  chunkSize : s.chunkSize = r.chunkSize
  limit : s.maxPartialBytes = r.maxPartialBytes
  completed : s.completed = r.completed
  messages : List.Forall₂ (Paired r.chunkSize) (s.erase key).messages
    (r.messages.filter (·.1 ≠ key))

/-- The table written out. -/
structure Mirrors (s : Store) (r : Reassembly) : Prop where
  chunkSize : s.chunkSize = r.chunkSize
  limit : s.maxPartialBytes = r.maxPartialBytes
  buffered : s.buffered = r.buffered
  messages : List.Forall₂ (Paired r.chunkSize) s.messages r.messages
  completed : s.completed = r.completed

variable {s s' : Store} {r r' : Reassembly} {key : Key} {slot : Slot} {m : Partial}
  {h : Chunk.Header} {payload : Bytes} {now : Instant} {outcome : Outcome}

theorem erase_put (s : Store) (key : Key) (slot : Slot) :
    (s.put key slot).erase key = s.erase key := by
  unfold put erase
  dsimp only
  rw [List.filter_cons_of_neg (by simp), List.filter_filter]
  simp only [Bool.and_self]

theorem Apart.put (ha : Apart key s r) (hslot : slot.Holds r.chunkSize m)
    (hne : 0 < m.pieces.size) :
    Mirrors (s.put key slot) { r.put key m with buffered := s.buffered } where
  chunkSize := ha.chunkSize
  limit := ha.limit
  buffered := rfl
  messages := .cons ⟨rfl, hslot, hne⟩ ha.messages
  completed := ha.completed

namespace Mirrors

theorem init (cs limit : Nat) : Mirrors { chunkSize := cs, maxPartialBytes := limit }
    { chunkSize := cs, maxPartialBytes := limit } where
  chunkSize := rfl
  limit := rfl
  buffered := rfl
  messages := .nil
  completed := rfl

theorem apart (hm : Mirrors s r) (key : Key) : Apart key s r where
  chunkSize := hm.chunkSize
  limit := hm.limit
  completed := hm.completed
  messages := by
    refine List.rel_filter (fun x y hxy => ?_) hm.messages
    show decide (x.1 ≠ key) = true ↔ decide (y.1 ≠ key) = true
    rw [hxy.key]

/-- A message is in both tables or in none. -/
theorem find? (hm : Mirrors s r) (key : Key) :
    s.find? key = none ∧ r.find? key = none ∨
      ∃ slot m, s.find? key = some slot ∧ r.find? key = some m ∧ slot.Holds r.chunkSize m ∧
        0 < m.pieces.size := by
  have hmessages := hm.messages
  unfold Store.find? Reassembly.find?
  generalize s.messages = l, r.messages = l' at hmessages
  induction hmessages with
  | nil => exact Or.inl ⟨rfl, rfl⟩
  | @cons x y l l' hxy _ ih =>
    obtain ⟨k, slot⟩ := x
    obtain ⟨k', m⟩ := y
    obtain rfl : k = k' := hxy.key
    by_cases hk : key = k
    · subst hk
      rw [List.lookup_cons_self, List.lookup_cons_self]
      exact Or.inr ⟨slot, m, rfl, rfl, hxy.holds, hxy.nonempty⟩
    · rw [List.lookup_cons, List.lookup_cons, beq_eq_false_iff_ne.mpr hk]
      exact ih

end Mirrors

/-! ## A chunk -/

/-- What a chunk does to both tables. -/
inductive Agrees (s : Store) (r : Reassembly) :
    Outcome × Reassembly → Option (Outcome × Store) → Prop
  | halts : Agrees s r (.outOfRange, r) none
  | refused {outcome : Outcome} (mirrors : Mirrors s r)
      (noTrace : outcome = .duplicate ∨ ∃ reason, outcome = .rejected reason) :
      Agrees s r (outcome, r) (some (outcome, s))
  | stored {outcome : Outcome} {r' : Reassembly} {s' : Store} (mirrors : Mirrors s' r')
      (taken : outcome = .incomplete ∨ ∃ data, outcome = .complete data) :
      Agrees s r (outcome, r') (some (outcome, s'))

theorem Agrees.ite {p : Prop} [Decidable p] {a b : Outcome × Reassembly}
    {a' b' : Option (Outcome × Store)} (hyes : p → Agrees s r a a') (hno : ¬p → Agrees s r b b') :
    Agrees s r (if p then a else b) (if p then a' else b') := by
  by_cases hp : p
  · rw [if_pos hp, if_pos hp]
    exact hyes hp
  · rw [if_neg hp, if_neg hp]
    exact hno hp

/-- What becomes of a message with one more chunk, and of the table in which all buffers have so
many bytes by now. -/
def settle (r : Reassembly) (key : Key) (m : Partial) (buffered : Nat) (now : Instant) :
    Outcome × Reassembly :=
  if m.pieces.size < m.total.toNat then (.incomplete, { r.put key m with buffered })
  else
    (.complete (m.data r.chunkSize),
      { r with
        buffered := buffered - m.extent
        messages := r.messages.filter (·.1 ≠ key)
        completed := (key, now) :: r.completed })

theorem store_eq_settle {i : Nat} {isLast : Bool}
    (hstop : i * r.chunkSize + payload.length ≤ sizeMax)
    (hroom : m.extent < i * r.chunkSize + payload.length →
      r.buffered + (i * r.chunkSize + payload.length - m.extent) ≤ wordMax ∧
      r.buffered + (i * r.chunkSize + payload.length - m.extent) ≤ r.maxPartialBytes) :
    r.store key m i isLast payload now =
      settle r key (m.add r.chunkSize i isLast payload now)
        (r.buffered + (i * r.chunkSize + payload.length - m.extent)) now := by
  have hword : sizeMax < wordMax := by decide
  unfold Reassembly.store
  dsimp only
  rw [if_neg (by omega), if_neg (by omega), if_neg (by omega), if_neg (by omega)]
  rfl

theorem store_beyond {i : Nat} {isLast : Bool}
    (hout : wordMax < i * r.chunkSize + payload.length ∨
      m.extent < i * r.chunkSize + payload.length ∧
        (wordMax < r.buffered + (i * r.chunkSize + payload.length - m.extent) ∨
          r.buffered + (i * r.chunkSize + payload.length - m.extent) ≤ r.maxPartialBytes ∧
          sizeMax < i * r.chunkSize + payload.length)) :
    r.store key m i isLast payload now = (.outOfRange, r) := by
  unfold Reassembly.store
  dsimp only
  split
  · rfl
  split
  · rfl
  rw [if_neg (by omega), if_pos (by omega)]

theorem store_crowded {i : Nat} {isLast : Bool}
    (hword : i * r.chunkSize + payload.length ≤ wordMax)
    (hgrow : m.extent < i * r.chunkSize + payload.length)
    (hsum : r.buffered + (i * r.chunkSize + payload.length - m.extent) ≤ wordMax)
    (hfull : r.maxPartialBytes < r.buffered + (i * r.chunkSize + payload.length - m.extent)) :
    r.store key m i isLast payload now = (.rejected .bufferLimit, r) := by
  unfold Reassembly.store
  dsimp only
  rw [if_neg (by omega), if_neg (by omega), if_pos ⟨hgrow, hfull⟩]

theorem Apart.settle_fill? (ha : Apart key s r) {start stop : Nat} {isLast : Bool} {slot' : Slot}
    (hadd : slot.add? h.index.toNat start stop isLast payload now = some slot')
    (hslot : slot'.Holds r.chunkSize m) (htotal : m.total = h.total) (hne : 0 < m.pieces.size)
    (hcounted : m.extent ≤ s.buffered) (before : Store) :
    Agrees before r (settle r key m s.buffered now)
      (s.fill? key slot h start stop isLast payload now) := by
  unfold Store.fill? settle
  rw [hadd, Option.bind_eq_bind, Option.bind_some, hslot.size_received, htotal]
  split
  · exact .stored (ha.put hslot hne) (Or.inl rfl)
  · have hsub : Word.sub? (s.erase key).buffered slot'.data.length =
        some (s.buffered - m.extent) := by
      rw [hslot.length_data]
      exact Word.sub?_of_le hcounted
    have hcompleted : (key, now) :: s.completed = (key, now) :: r.completed := by
      rw [ha.completed]
    dsimp only
    rw [erase_put, hsub, Option.bind_eq_bind, Option.bind_some, hslot.message_eq]
    exact .stored ⟨ha.chunkSize, ha.limit, rfl, ha.messages, hcompleted⟩ (Or.inr ⟨_, rfl⟩)

/-- The message of a key has been looked up or entered, and nothing else has happened. -/
structure Entered (before s : Store) (r : Reassembly) (key : Key) (h : Chunk.Header)
    (slot : Slot) (m : Partial) : Prop extends Apart key s r where
  mirrors : Mirrors before r
  holds : slot.Holds r.chunkSize m
  buffered : s.buffered = r.buffered
  counted : m.extent ≤ r.buffered
  /-- a message without chunks was not there before -/
  undone : (if slot.received.isEmpty then s.erase key else s) = before
  fresh : s = before ∨ slot.received = {} ∧ slot.prototype = h

section

variable {before : Store} (he : Entered before s r key h slot m) (htotal : m.total = h.total)
  (hlength : payload.length ≤ r.chunkSize) (hnew : h.index.toNat ∉ m.pieces)
include he htotal hlength hnew

/-- A chunk that has room is stored. -/
theorem Entered.fill? {stop : Nat} (hstop : stop = h.index.toNat * r.chunkSize + payload.length)
    (hsize : stop ≤ sizeMax) {n : Nat} (hn : n = r.buffered + (stop - m.extent))
    (hroom : m.extent < stop → n ≤ wordMax ∧ n ≤ r.maxPartialBytes) (isLast : Bool)
    (now : Instant) :
    Agrees before r (r.store key m h.index.toNat isLast payload now)
      (Store.fill? { s with buffered := n } key { slot with data := stretch slot.data stop } h
        (h.index.toNat * r.chunkSize) stop isLast payload now) := by
  subst hstop hn
  obtain ⟨slot', hadd, hslot⟩ := he.holds.add? hlength hnew hsize isLast now
  have hcount := Partial.size_add m r.chunkSize isLast payload now hnew
  have hextent := Partial.extent_add m r.chunkSize h.index.toNat isLast payload now
  have hcounted := he.counted
  have ha : Apart key
      { s with
        buffered := r.buffered + (h.index.toNat * r.chunkSize + payload.length - m.extent) } r :=
    ⟨he.chunkSize, he.limit, he.completed, he.messages⟩
  rw [store_eq_settle hsize hroom]
  exact ha.settle_fill? hadd hslot htotal (by omega) (by dsimp only; omega) before

theorem Entered.grow? {stop : Nat} (hstop : stop = h.index.toNat * r.chunkSize + payload.length)
    (hword : stop ≤ wordMax) (hgrow : m.extent < stop) (isLast : Bool) (now : Instant) :
    Agrees before r (r.store key m h.index.toNat isLast payload now)
      (s.grow? key slot h (h.index.toNat * r.chunkSize) stop isLast payload now) := by
  unfold Store.grow?
  rw [he.buffered, he.limit, he.holds.length_data]
  by_cases hsum : wordMax < r.buffered + (stop - m.extent)
  · subst hstop
    rw [store_beyond (Or.inr ⟨hgrow, Or.inl hsum⟩), Word.add?, if_pos hsum]
    exact .halts
  rw [Word.add?_of_le (Nat.not_lt.mp hsum), Option.bind_eq_bind, Option.bind_some]
  by_cases hfull : r.maxPartialBytes < r.buffered + (stop - m.extent)
  · subst hstop
    rw [if_pos hfull, store_crowded hword hgrow (Nat.not_lt.mp hsum) hfull, he.undone]
    exact .refused he.mirrors (Or.inr ⟨_, rfl⟩)
  rw [if_neg hfull]
  by_cases hlarge : sizeMax < stop
  · subst hstop
    rw [if_pos hlarge, store_beyond (Or.inr ⟨hgrow, Or.inr ⟨Nat.not_lt.mp hfull, hlarge⟩⟩)]
    exact .halts
  · rw [if_neg hlarge]
    have hfill := he.fill? htotal hlength hnew hstop (Nat.not_lt.mp hlarge) rfl
      (fun _ => ⟨Nat.not_lt.mp hsum, Nat.not_lt.mp hfull⟩) isLast now
    rwa [he.limit] at hfill

theorem Entered.accept? (isLast : Bool) (now : Instant) :
    Agrees before r (r.store key m h.index.toNat isLast payload now)
      (s.accept? key slot h isLast payload now) := by
  have hextent := he.holds.extent_le
  have hmax : sizeMax < wordMax := by decide
  unfold Store.accept?
  rw [he.chunkSize, he.holds.length_data]
  by_cases hword : wordMax < h.index.toNat * r.chunkSize + payload.length
  · rw [store_beyond (Or.inl hword), Word.mul?]
    split
    · exact .halts
    · rw [Option.bind_eq_bind, Option.bind_some, Word.add?, if_pos hword]
      exact .halts
  rw [Word.mul?_of_le (by omega), Option.bind_eq_bind, Option.bind_some,
    Word.add?_of_le (by omega), Option.bind_some]
  by_cases hgrow : m.extent < h.index.toNat * r.chunkSize + payload.length
  · rw [if_pos hgrow]
    exact he.grow? htotal hlength hnew rfl (Nat.not_lt.mp hword) hgrow isLast now
  · -- the buffer is long enough
    have hlong : stretch slot.data (h.index.toNat * r.chunkSize + payload.length) = slot.data :=
      stretch_eq_self (by rw [he.holds.length_data]; omega)
    have hsame : s.buffered =
        r.buffered + (h.index.toNat * r.chunkSize + payload.length - m.extent) := by
      rw [he.buffered, Nat.sub_eq_zero_of_le (Nat.not_lt.mp hgrow), Nat.add_zero]
    have hfill := he.fill? htotal hlength hnew rfl (by omega) hsame
      (fun hlt => absurd hlt hgrow) isLast now
    rw [hlong] at hfill
    rw [if_neg hgrow]
    exact hfill

end

theorem erase_of_find?_eq_none (hs : s.find? key = none) : s.erase key = s := by
  have hself : s.messages.filter (·.1 ≠ key) = s.messages :=
    List.filter_eq_self.mpr fun x hx => by
      have hne : (key != x.1) = true := List.lookup_eq_none_iff.mp hs x hx
      exact decide_eq_true (Ne.symm (bne_iff_ne.mp hne))
  unfold erase
  rw [hself]

namespace Mirrors

/-- The message that a chunk goes into, entered into the table if it was not there. -/
theorem enter (hm : Mirrors s r) (ht : r.Tallied) (key : Key) (h : Chunk.Header)
    (now : Instant) : ∃ slot t, s.enter key h now = (slot, t) ∧
      Entered s t r key h slot (r.target key h now) := by
  have ha := hm.apart key
  have hcounted : (r.target key h now).extent ≤ r.buffered := by
    rw [ht.total_target key h now]
    exact Nat.le_add_left _ _
  unfold Store.enter
  rcases hm.find? key with ⟨hs, hr⟩ | ⟨slot, m, hs, hr, hslot, hne⟩
  · rw [target_eq_unseen hr] at hcounted ⊢
    have herase (slot : Slot) : (s.put key slot).erase key = s := by
      rw [erase_put, erase_of_find?_eq_none hs]
    have hundone : (if (Slot.received { prototype := h, lastSeen := now }).isEmpty
        then (s.put key { prototype := h, lastSeen := now }).erase key
        else s.put key { prototype := h, lastSeen := now }) = s := by
      rw [if_pos Std.TreeSet.isEmpty_emptyc, herase]
    rw [hs]
    exact ⟨_, _, rfl,
      ⟨ha.chunkSize, ha.limit, ha.completed, by rw [erase_put]; exact ha.messages⟩, hm,
      .unseen _ _ _, hm.buffered, hcounted, hundone, Or.inr ⟨rfl, rfl⟩⟩
  · have hsize := hslot.size_received
    have hpresent : slot.received.isEmpty = false := by
      rw [Std.TreeSet.isEmpty_eq_size_eq_zero, hsize]
      exact beq_eq_false_iff_ne.mpr (Nat.ne_of_gt hne)
    rw [target_eq hr] at hcounted ⊢
    rw [hs]
    exact ⟨_, _, rfl, ha, hm, hslot, hm.buffered, hcounted, by rw [hpresent]; rfl, Or.inl rfl⟩

theorem lengthFault_eq (hm : Mirrors s r) (isLast : Bool) (n : Nat) :
    s.lengthFault isLast n = r.lengthFault isLast n := by
  unfold Store.lengthFault Reassembly.lengthFault
  rw [hm.chunkSize]

theorem insert? (hm : Mirrors s r) (ht : r.Tallied) (sender : SocketAddr) (h : Chunk.Header)
    (payload : Bytes) (now : Instant) :
    Agrees s r (r.insert sender h payload now) (s.insert? sender h payload now) := by
  unfold Reassembly.insert isCompleted Store.insert?
  rw [hm.completed]
  refine .ite (fun _ => .refused hm (Or.inl rfl)) fun _ => ?_
  refine .ite (fun _ => .refused hm (Or.inr ⟨_, rfl⟩)) fun _ => ?_
  cases h.isLast? with
  | none => exact .halts
  | some isLast =>
    dsimp only
    rw [hm.lengthFault_eq]
    cases hsized : r.lengthFault isLast payload.length with
    | some reason => exact .refused hm (Or.inr ⟨_, rfl⟩)
    | none =>
      obtain ⟨slot, t, henter, he⟩ := hm.enter ht (sender, h.sequence) h now
      have htarget : (r.find? (sender, h.sequence)).getD
          { kind := h.kind, total := h.total, lastSeen := now } =
        r.target (sender, h.sequence) h now := rfl
      -- a message that the chunk itself has entered passes the checks
      have hrefused {outcome : Outcome}
          (noTrace : outcome = .duplicate ∨ ∃ reason, outcome = .rejected reason)
          (hseen : ¬ (slot.received = {} ∧ slot.prototype = h)) :
          Agrees s r (outcome, r) (some (outcome, t)) := by
        rw [he.fresh.resolve_right hseen]
        exact .refused hm noTrace
      dsimp only
      rw [henter, htarget]
      dsimp only
      rw [← he.holds.total, ← he.holds.kind, ← he.holds.contains_eq]
      refine .ite (fun htotal => hrefused (Or.inr ⟨_, rfl⟩) fun hf => htotal (by rw [hf.2]))
        fun htotal => ?_
      refine .ite (fun hkind => hrefused (Or.inr ⟨_, rfl⟩) fun hf => hkind (by rw [hf.2]))
        fun _ => ?_
      refine .ite (fun hheld => hrefused (Or.inl rfl) fun hf => by simp [hf.1] at hheld)
        fun hheld => ?_
      have hnew : h.index.toNat ∉ (r.target (sender, h.sequence) h now).pieces := by
        rwa [Std.TreeMap.mem_iff_contains, ← he.holds.contains_eq]
      exact he.accept? (he.holds.total ▸ not_not.mp htotal) (length_le_of_sized hsized) hnew isLast
        now

/-! ## A purge -/

theorem foldlM_sub? {cs : Nat} {l : List (Key × Slot)} {l' : List (Key × Partial)}
    (hl : List.Forall₂ (Paired cs) l l') {n : Nat} (hn : Reassembly.total l' ≤ n) :
    l.foldlM (fun n (_, slot) => Word.sub? n slot.data.length) n =
      some (n - Reassembly.total l') := by
  induction hl generalizing n with
  | nil => rfl
  | @cons x y l l' hxy _ ih =>
    obtain ⟨k, slot⟩ := x
    have hlength : slot.data.length = y.2.extent := hxy.holds.length_data
    rw [total_cons] at hn ⊢
    rw [List.foldlM_cons]
    dsimp only
    rw [hlength, Word.sub?_of_le (by omega), Option.bind_eq_bind,
      Option.bind_some, ih (by omega), Nat.sub_sub]

theorem filter (hm : Mirrors s r) {p : Slot → Bool} {q : Partial → Bool}
    (hpq : ∀ slot m, slot.Holds r.chunkSize m → p slot = q m) :
    List.Forall₂ (Paired r.chunkSize) (s.messages.filter fun x => p x.2)
      (r.messages.filter fun y => q y.2) := by
  refine List.rel_filter (fun x y hxy => ?_) hm.messages
  show p x.2 = true ↔ q y.2 = true
  rw [hpq x.2 y.2 hxy.holds]

/-- A purge never halts. -/
theorem purge? (hm : Mirrors s r) (ht : r.Tallied) (now : Instant) (timeout retention : Duration) :
    ∃ s', s.purge? now timeout retention = some ((r.purge now timeout retention).1, s') ∧
      Mirrors s' (r.purge now timeout retention).2 := by
  have hkept := hm.filter (p := fun slot => decide (now - slot.lastSeen < timeout.nanos))
    (q := fun m => decide (now - m.lastSeen < timeout.nanos)) fun slot m hh => by rw [hh.lastSeen]
  have hstale := hm.filter (p := fun slot => !decide (now - slot.lastSeen < timeout.nanos))
    (q := fun m => !decide (now - m.lastSeen < timeout.nanos)) fun slot m hh => by rw [hh.lastSeen]
  have hsplit := total_partition r.messages fun y => decide (now - y.2.lastSeen < timeout.nanos)
  have hcount := List.length_eq_length_filter_add (l := s.messages) fun x =>
    decide (now - x.2.lastSeen < timeout.nanos)
  have htotal := ht.buffered_eq
  refine ⟨{ s with
    buffered := (r.purge now timeout retention).2.buffered
    messages := s.messages.filter fun x => decide (now - x.2.lastSeen < timeout.nanos)
    completed := (r.purge now timeout retention).2.completed }, ?_, ?_⟩
  · rw [purge_snd]
    unfold Store.purge? Reassembly.purge
    simp only [List.partition_eq_filter_filter, Function.comp_def, Option.bind_eq_bind]
    rw [hm.buffered, foldlM_sub? hstale (by omega), Option.bind_some, Word.sub?_of_le (by omega),
      Option.bind_some, hm.completed, ← hstale.length_eq, Nat.sub_eq_of_eq_add' hcount]
  · rw [purge_snd]
    exact ⟨hm.chunkSize, hm.limit, rfl, hkept, rfl⟩

/-! ## All calls -/

theorem step? (hm : Mirrors s r) (ht : r.Tallied) {c : Call} (hs : s.step? c = some s') :
    Mirrors s' (r.after c) := by
  cases c with
  | arrive sender h payload now =>
    obtain ⟨⟨outcome, t⟩, hi, rfl⟩ := Option.map_eq_some_iff.mp hs
    have hagrees := hm.insert? ht sender h payload now
    rw [hi] at hagrees
    show Mirrors t (r.insert sender h payload now).2
    generalize r.insert sender h payload now = result at hagrees
    cases hagrees with
    | refused mirrors | stored mirrors => exact mirrors
  | purge now timeout retention =>
    obtain ⟨t, hp, mirrors⟩ := hm.purge? ht now timeout retention
    obtain ⟨_, hp', rfl⟩ := Option.map_eq_some_iff.mp hs
    cases hp.symm.trans hp'
    exact mirrors

/-- A call halts only if the table knows no answer. -/
theorem exists_step? (hm : Mirrors s r) (ht : r.Tallied) (c : Call)
    (hrange : ∀ sender h payload now, c = .arrive sender h payload now →
      (r.insert sender h payload now).1 ≠ .outOfRange) : ∃ s', s.step? c = some s' := by
  cases c with
  | arrive sender h payload now =>
    have hagrees := hm.insert? ht sender h payload now
    have hrange := hrange sender h payload now rfl
    show ∃ s', (s.insert? sender h payload now).map (·.2) = some s'
    generalize r.insert sender h payload now = result at hagrees hrange
    generalize s.insert? sender h payload now = result' at hagrees
    cases hagrees with
    | halts => exact absurd rfl hrange
    | refused | stored => exact ⟨_, rfl⟩
  | purge now timeout retention =>
    obtain ⟨t, hp, _⟩ := hm.purge? ht now timeout retention
    exact ⟨t, by rw [Store.step?, hp, Option.map_some]⟩

end Mirrors

theorem run?_concat (cs limit : Nat) (calls : List Call) (c : Call) :
    run? cs limit (calls ++ [c]) = (run? cs limit calls).bind (step? · c) := by
  simp [run?, List.foldlM_append]

/-- Whatever calls there were, both tables are the same. -/
theorem mirrors_run {cs limit : Nat} {calls : List Call} (hs : run? cs limit calls = some s) :
    Mirrors s (afterAll cs limit calls) ∧ (afterAll cs limit calls).Tallied := by
  induction calls using List.reverseRecOn generalizing s with
  | nil =>
    cases hs
    exact ⟨.init cs limit, tallied_empty cs limit⟩
  | append_singleton calls c ih =>
    rw [run?_concat, Option.bind_eq_some_iff] at hs
    obtain ⟨t, ht, hstep⟩ := hs
    obtain ⟨mirrors, tallied⟩ := ih ht
    rw [afterAll_append]
    exact ⟨mirrors.step? tallied hstep, tallied.after c⟩

theorem Mirrors.received_nonempty (hm : Mirrors s r) :
    ∀ x ∈ s.messages, x.2.received.isEmpty = false := by
  have hmessages := hm.messages
  generalize s.messages = l, r.messages = l' at hmessages
  induction hmessages with
  | nil => exact fun x hx => absurd hx List.not_mem_nil
  | cons hxy _ ih =>
    refine List.forall_mem_cons.mpr ⟨?_, ih⟩
    rw [Std.TreeSet.isEmpty_eq_size_eq_zero, hxy.holds.size_received]
    exact beq_eq_false_iff_ne.mpr (Nat.ne_of_gt hxy.nonempty)

/-- A chunk that is refused or was here before leaves the table as it is, and every message in
it has a chunk. -/
theorem traceless_run {cs limit : Nat} {calls : List Call} (hs : run? cs limit calls = some s)
    {sender : SocketAddr} (hi : s.insert? sender h payload now = some (outcome, s'))
    (hout : outcome = .duplicate ∨ ∃ reason, outcome = .rejected reason) :
    s' = s ∧ (∀ x ∈ s'.messages, x.2.received.isEmpty = false) ∧
      Mirrors s (afterAll cs limit calls) ∧
      (afterAll cs limit calls).insert sender h payload now =
        (outcome, afterAll cs limit calls) := by
  obtain ⟨mirrors, tallied⟩ := mirrors_run hs
  generalize afterAll cs limit calls = r at mirrors tallied ⊢
  have hagrees := mirrors.insert? tallied sender h payload now
  rw [hi] at hagrees
  generalize r.insert sender h payload now = result at hagrees ⊢
  cases hagrees with
  | refused => exact ⟨rfl, mirrors.received_nonempty, mirrors, rfl⟩
  | stored _ taken =>
    rcases hout with rfl | ⟨reason, rfl⟩
    · simp at taken
    · simp at taken

/-- One message has taken most of the room. -/
def crowdedCalls : List Call := [.arrive thisPeer ⟨.data, 0, 2, 0⟩ [1, 2] 5]

def crowdedStore : Store where
  chunkSize := 2
  maxPartialBytes := 3
  buffered := 2
  messages := [((thisPeer, 0), {
    prototype := ⟨.data, 0, 2, 0⟩
    data := [1, 2]
    received := Std.TreeSet.empty.insert 0
    lastSeen := 5 })]

/-- The first chunk of another one is not taken, and the table does not know of it. -/
theorem traceless_run_crowded :
    run? 2 3 crowdedCalls = some crowdedStore ∧
    crowdedStore.insert? otherPeer ⟨.data, 0, 2, 0⟩ [7, 8] 6 =
      some (.rejected .bufferLimit, crowdedStore) ∧
    (afterAll 2 3 crowdedCalls).insert otherPeer ⟨.data, 0, 2, 0⟩ [7, 8] 6 =
      (.rejected .bufferLimit, afterAll 2 3 crowdedCalls) := by
  have hs : run? 2 3 crowdedCalls = some crowdedStore := by rfl
  have hi : crowdedStore.insert? otherPeer ⟨.data, 0, 2, 0⟩ [7, 8] 6 =
      some (.rejected .bufferLimit, crowdedStore) := by rfl
  obtain ⟨_, _, _, hinsert⟩ := traceless_run hs hi (Or.inr ⟨_, rfl⟩)
  exact ⟨hs, hi, hinsert⟩

end Store

end Courier.Reassembly
