import Courier.Proofs.Outbound.Turns
import Mathlib.Data.List.InsertIdx

/-!
The queue as a table: the messages by their numbers, a ring of the numbers alone, and for
each message the set of its sent chunks written out. Nothing but what the operations do
keeps the table and the ring together, or the set and the count of sent chunks. A ring of
messages is the same queue: every operation gives the same answer on both.
-/

namespace Courier.Outbound

/-! ## One message -/

structure Slot extends Message where
  sent : Std.TreeSet Nat := {}

namespace Slot

def emit (s : Slot) (maxFlight : Nat) : Option Outgoing × Slot :=
  match s.lost.dropWhile (s.acked.contains ·) with
  | index :: rest =>
    (some (s.chunk index true), { s with lost := rest, queued := s.queued + 1 })
  | [] =>
    let s := { s with lost := [] }
    if s.allSent || !s.hasRoom maxFlight then (none, s)
    else
      let index := s.firstUnsent
      (some (s.chunk index false),
        { s with
          firstUnsent := index + 1
          sent := s.sent.insert index
          queued := s.queued + 1
          outstanding := if s.reliable then s.outstanding + 1 else s.outstanding })

def markWritten (s : Slot) : Slot := { s with queued := s.queued - 1 }

def acknowledge? (s : Slot) (total : UInt16) (index : Nat) : Option Slot :=
  if s.reliable && total.toNat == s.total && s.sent.contains index && !s.acked.contains index then
    some { s with
      acked := s.acked.insert index
      outstanding := s.outstanding - 1
      stalledTicks := 0 }
  else none

def requeueLost (s : Slot) (maxFlight : Nat) : Slot :=
  { s with
    lost := ((List.range s.firstUnsent).filter fun i =>
      s.sent.contains i && !s.acked.contains i).take maxFlight }

/-- The set of sent chunks is what the count says. -/
def Exact (s : Slot) : Prop := ∀ i, i ∈ s.sent ↔ i < s.firstUnsent

variable {s : Slot}

theorem emit_eq (s : Slot) (W : Nat) :
    (s.emit W).1 = (s.toMessage.emit W).1 ∧ (s.emit W).2.toMessage = (s.toMessage.emit W).2 := by
  unfold emit Message.emit
  cases s.lost.dropWhile (s.acked.contains ·) with
  | cons i rest => exact ⟨rfl, rfl⟩
  | nil =>
    dsimp only
    split
    · exact ⟨rfl, rfl⟩
    · exact ⟨rfl, rfl⟩

theorem Exact.emit (h : s.Exact) (W : Nat) : (s.emit W).2.Exact := by
  unfold Slot.emit
  split
  · exact h
  · dsimp only
    split
    · exact h
    · intro i
      dsimp only
      rw [Std.TreeSet.mem_insert, Std.compare_eq_iff_eq, h]
      omega

theorem Exact.contains_eq (h : s.Exact) (i : Nat) :
    s.sent.contains i = decide (i < s.firstUnsent) := by
  rw [Bool.eq_iff_iff, decide_eq_true_eq, ← Std.TreeSet.mem_iff_contains, h]

theorem Exact.acknowledge?_eq (h : s.Exact) (total : UInt16) (i : Nat) :
    (s.acknowledge? total i).map (·.toMessage) = s.toMessage.acknowledge? total i := by
  unfold acknowledge? Message.acknowledge?
  rw [h.contains_eq]
  split <;> rfl

theorem Exact.acknowledge? {s' : Slot} (h : s.Exact) {total : UInt16} {i : Nat}
    (ha : s.acknowledge? total i = some s') : s'.Exact := by
  unfold Slot.acknowledge? at ha
  split at ha
  · cases ha
    exact h
  · cases ha

theorem Exact.requeueLost_eq (h : s.Exact) (W : Nat) :
    (s.requeueLost W).toMessage = s.toMessage.requeueLost W := by
  have hsame : ((List.range s.firstUnsent).filter fun i =>
      s.sent.contains i && !s.acked.contains i) = s.toMessage.unacked := by
    apply List.filter_congr
    intro i hi
    rw [h.contains_eq, decide_eq_true (List.mem_range.mp hi), Bool.true_and]
  unfold requeueLost Message.requeueLost
  rw [hsame]

end Slot

/-! ## The table and the ring -/

structure Store where
  chunkSize : Nat
  maxFlight : Nat
  nextNumber : UInt64 := 0
  messages : Std.TreeMap UInt64 Slot := {}
  ring : List UInt64 := []
  cursor : Nat := 0

namespace Store

def register (s : Store) (dest : SocketAddr) (data : Bytes) (reliable : Bool) :
    Except SendError (UInt64 × Store) :=
  let limit := Chunk.maxCount * s.chunkSize
  if data = [] then .error .empty
  else if wordMax < limit then .error .outOfRange
  else if limit < data.length then .error (.tooLarge data.length limit)
  else if s.nextNumber.toNat = wordMax then .error .outOfRange
  else
    match Chunk.split? data s.chunkSize with
    | none => .error .outOfRange
    | some pieces =>
      let sequence := s.nextNumber
      .ok (sequence, { s with
        nextNumber := sequence + 1
        messages := s.messages.insert sequence { sequence, dest, reliable, pieces }
        ring := s.ring ++ [sequence] })

def put (s : Store) (n : UInt64) (slot : Slot) : Store :=
  { s with messages := s.messages.insert n slot }

/-- Asks the message at the cursor, and so many after it, until one has a chunk. -/
def seek : (turns : Nat) → Store → Option Outgoing × Store
  | 0, s => (none, s)
  | turns + 1, s =>
    let place := if s.cursor < s.ring.length then s.cursor else 0
    match s.ring[place]? with
    | none => (none, s)
    | some n =>
      let s := { s with cursor := (place + 1) % s.ring.length }
      match s.messages[n]? with
      | none => seek turns s
      | some slot =>
        match slot.emit s.maxFlight with
        | (some chunk, slot) => (some chunk, s.put n slot)
        | (none, slot) => seek turns (s.put n slot)

def next (s : Store) : Option Outgoing × Store := s.seek s.ring.length

def markWritten (s : Store) (n : UInt64) : Store :=
  match s.messages[n]? with
  | none => s
  | some slot => s.put n slot.markWritten

def remove (s : Store) (n : UInt64) : Store :=
  let s := { s with messages := s.messages.erase n }
  match s.ring.findIdx? (· == n) with
  | none => s
  | some place =>
    let ring := s.ring.eraseIdx place
    let cursor := if place < s.cursor then s.cursor - 1 else s.cursor
    { s with ring, cursor := if cursor < ring.length then cursor else 0 }

def acknowledge (s : Store) (ack : Chunk.Header) : Bool × Store :=
  match s.messages[ack.sequence]? with
  | none => (false, s)
  | some slot =>
    match slot.acknowledge? ack.total ack.index.toNat with
    | none => (false, s)
    | some slot =>
      let s := s.put ack.sequence slot
      (true, if slot.allAcked then s.remove ack.sequence else s)

/-- What a tick does to the message with the number; it remembers whom to remove. -/
def tickOne (tickThreshold threshold : Nat) : Store × Tick × List UInt64 → UInt64 →
    Store × Tick × List UInt64
  | (s, outcome, gone), n =>
    match s.messages[n]? with
    | none => (s, outcome, gone)
    | some slot =>
      if !slot.reliable then
        if slot.allSent && slot.queued == 0 then
          (s, { outcome with purged := outcome.purged + 1 }, gone ++ [n])
        else (s, outcome, gone)
      else
        let slot := { slot with stalledTicks := slot.stalledTicks + 1 }
        if threshold ≤ slot.stalledTicks then
          (s.put n slot, { outcome with abandoned := outcome.abandoned ++ [n] }, gone ++ [n])
        else if tickThreshold ≤ slot.stalledTicks then
          let slot := slot.requeueLost s.maxFlight
          (s.put n slot, { outcome with resent := outcome.resent + slot.lost.length }, gone)
        else (s.put n slot, outcome, gone)

def tick (s : Store) (tickThreshold threshold : Nat) : Tick × Store :=
  let (s, outcome, gone) := s.ring.foldl (tickOne tickThreshold threshold) (s, {}, [])
  (outcome, gone.foldl remove s)

def dropTo (s : Store) (dest : SocketAddr) : Nat × Store :=
  let gone := s.ring.filter fun n => s.messages[n]?.any (·.dest == dest)
  (gone.length, gone.foldl remove s)

/-! ## The same queue -/

/-- Table and ring of numbers hold what the ring of messages holds, and the sets of sent
chunks are what the counts say. -/
structure Mirrors (s : Store) (q : Queue) : Prop where
  chunkSize : s.chunkSize = q.chunkSize
  maxFlight : s.maxFlight = q.maxFlight
  nextNumber : s.nextNumber = q.nextNumber
  cursor : s.cursor = q.cursor
  ring : s.ring = q.ring.map (·.sequence)
  messages : ∀ n : UInt64, s.messages[n]?.map (·.toMessage) = q.find? n
  exact : ∀ (n : UInt64) (slot : Slot), s.messages[n]? = some slot → slot.Exact

namespace Mirrors

variable {s s' : Store} {q q' : Queue} {n : UInt64} {slot : Slot} {m m' : Message}
  {early seg late : List Message}

theorem init (cs W : Nat) : Mirrors { chunkSize := cs, maxFlight := W }
    { chunkSize := cs, maxFlight := W } where
  chunkSize := rfl
  maxFlight := rfl
  nextNumber := rfl
  cursor := rfl
  ring := rfl
  messages n := by simp [Queue.find?]
  exact n slot hslot := by simp at hslot

theorem find? (h : Mirrors s q) (hslot : s.messages[n]? = some slot) :
    q.find? n = some slot.toMessage := by
  rw [← h.messages, hslot, Option.map_some]

theorem exists_slot (h : Mirrors s q) (hm : q.find? n = some m) :
    ∃ slot, s.messages[n]? = some slot ∧ slot.toMessage = m ∧ slot.Exact := by
  rw [← h.messages] at hm
  obtain ⟨slot, hslot, rfl⟩ := Option.map_eq_some_iff.mp hm
  exact ⟨slot, hslot, rfl, h.exact n slot hslot⟩

theorem eq_none (h : Mirrors s q) (hnone : q.find? n = none) : s.messages[n]? = none := by
  rw [← h.messages] at hnone
  exact Option.map_eq_none_iff.mp hnone

theorem getElem?_put (s : Store) (n k : UInt64) (slot : Slot) :
    (s.put n slot).messages[k]? = if k = n then some slot else s.messages[k]? := by
  rw [Store.put, Std.TreeMap.getElem?_insert]
  simp only [Std.compare_eq_iff_eq, @eq_comm _ k]

theorem getElem?_remove (s : Store) (n k : UInt64) :
    (s.remove n).messages[k]? = if k = n then none else s.messages[k]? := by
  have hmessages : (s.remove n).messages = s.messages.erase n := by
    unfold Store.remove
    dsimp only
    split <;> rfl
  rw [hmessages, Std.TreeMap.getElem?_erase]
  simp only [Std.compare_eq_iff_eq, @eq_comm _ k]

/-- Changing one message, which keeps its number. -/
theorem put (h : Mirrors s q) (hm : q.find? n = some m) {f : Message → Message}
    (hslot : slot.toMessage = f m) (hexact : slot.Exact)
    (hf : ∀ m, m.sequence = n → (f m).sequence = n) : Mirrors (s.put n slot) (q.update n f) where
  chunkSize := h.chunkSize
  maxFlight := h.maxFlight
  nextNumber := h.nextNumber
  cursor := h.cursor
  ring := h.ring.trans (Queue.numbers_update q n f hf).symm
  messages k := by
    rw [getElem?_put, Queue.find?_update q n f hf]
    by_cases hk : k = n
    · rw [if_pos hk, if_pos hk, hm, Option.map_some, Option.map_some, hslot]
    · rw [if_neg hk, if_neg hk, h.messages]
  exact k slot' hk := by
    rw [getElem?_put] at hk
    split at hk
    · cases hk
      exact hexact
    · exact h.exact k slot' hk

/-! ## Taking in and taking out -/

theorem register_ok (h : Mirrors s q) (hq : q.Sound) {dest : SocketAddr} {data : Bytes}
    {reliable : Bool} (hr : q.register dest data reliable = .ok (n, q')) :
    ∃ s', s.register dest data reliable = .ok (n, s') ∧ Mirrors s' q' := by
  have hfind := fun k => Queue.find?_register hq hr k
  obtain ⟨rfl, hlast, hdata, hlength, hword, pieces, hsplit, rfl⟩ :=
    Queue.register_eq_ok_iff.mp hr
  refine ⟨{ s with
    nextNumber := q.nextNumber + 1
    messages := s.messages.insert q.nextNumber { sequence := q.nextNumber, dest, reliable, pieces }
    ring := s.ring ++ [q.nextNumber] }, ?_, ?_⟩
  · simp only [register, h.chunkSize, h.nextNumber, if_neg hdata, if_neg (Nat.not_lt.mpr hword),
      if_neg (Nat.not_lt.mpr hlength), if_neg hlast, hsplit]
  · refine ⟨h.chunkSize, h.maxFlight, rfl, h.cursor, ?_, fun k => ?_, fun k slot hslot => ?_⟩
    · rw [h.ring, List.map_append]
      rfl
    · obtain ⟨_, pieces', hsplit', hk⟩ := hfind k
      cases hsplit.symm.trans hsplit'
      rw [hk, ← h.messages k]
      show ((s.put q.nextNumber _).messages[k]?).map _ = _
      rw [getElem?_put]
      split <;> rfl
    · have hslot : (s.put q.nextNumber _).messages[k]? = some slot := hslot
      rw [getElem?_put] at hslot
      split at hslot
      · cases hslot
        intro i
        simp
      · exact h.exact k slot hslot

theorem register_error (h : Mirrors s q) {dest : SocketAddr} {data : Bytes} {reliable : Bool}
    {e : SendError} (hr : q.register dest data reliable = .error e) :
    s.register dest data reliable = .error e := by
  unfold Queue.register Queue.maxMessageSize? at hr
  unfold Store.register
  rw [h.chunkSize, h.nextNumber]
  dsimp only at hr ⊢
  by_cases hdata : data = []
  · rw [if_pos hdata] at hr ⊢
    cases hr
    rfl
  rw [if_neg hdata] at hr ⊢
  by_cases hword : wordMax < Chunk.maxCount * q.chunkSize
  · rw [if_neg (Nat.not_le.mpr hword)] at hr
    rw [if_pos hword]
    cases hr
    rfl
  rw [if_pos (Nat.not_lt.mp hword)] at hr
  rw [if_neg hword]
  dsimp only at hr
  by_cases hlength : Chunk.maxCount * q.chunkSize < data.length
  · rw [if_pos hlength] at hr ⊢
    cases hr
    rfl
  rw [if_neg hlength] at hr ⊢
  by_cases hlast : q.nextNumber.toNat = wordMax
  · rw [if_pos hlast] at hr ⊢
    cases hr
    rfl
  rw [if_neg hlast] at hr ⊢
  cases hsplit : Chunk.split? data q.chunkSize with
  | none =>
    rw [hsplit] at hr
    cases hr
    rfl
  | some pieces =>
    rw [hsplit] at hr
    cases hr

theorem remove (h : Mirrors s q) (hd : Queue.Distinct q.ring) (n : UInt64) :
    Mirrors (s.remove n) (q.remove n) := by
  have hplace : s.ring.findIdx? (· == n) = q.ring.findIdx? (·.sequence == n) := by
    rw [h.ring, List.findIdx?_map]
    rfl
  -- both find the message at the same place, and move the cursor alike
  have hrest : (s.remove n).chunkSize = (q.remove n).chunkSize ∧
      (s.remove n).maxFlight = (q.remove n).maxFlight ∧
      (s.remove n).nextNumber = (q.remove n).nextNumber ∧
      (s.remove n).cursor = (q.remove n).cursor ∧
      (s.remove n).ring = (q.remove n).ring.map (·.sequence) := by
    unfold Store.remove Queue.remove
    dsimp only
    rw [hplace]
    cases q.ring.findIdx? (·.sequence == n) with
    | none => exact ⟨h.chunkSize, h.maxFlight, h.nextNumber, h.cursor, h.ring⟩
    | some place =>
      have hring : s.ring.eraseIdx place = (q.ring.eraseIdx place).map (·.sequence) := by
        rw [h.ring, List.eraseIdx_map]
      refine ⟨h.chunkSize, h.maxFlight, h.nextNumber, ?_, hring⟩
      dsimp only
      rw [hring, List.length_map, h.cursor]
  obtain ⟨h1, h2, h3, h4, h5⟩ := hrest
  refine ⟨h1, h2, h3, h4, h5, fun k => ?_, fun k slot hslot => ?_⟩
  · rw [getElem?_remove, Queue.find?_remove hd, ← h.messages]
    split <;> rfl
  · rw [getElem?_remove] at hslot
    split at hslot
    · cases hslot
    · exact h.exact k slot hslot

theorem foldl_remove (h : Mirrors s q) (hd : Queue.Distinct q.ring) (gone : List UInt64) :
    Mirrors (gone.foldl Store.remove s) (gone.foldl Queue.remove q) := by
  induction gone generalizing s q with
  | nil => exact h
  | cons n gone ih =>
    exact ih (h.remove hd n) (Queue.ring_remove hd n ▸ Queue.distinct_filter hd _)

theorem dropTo (h : Mirrors s q) (hq : q.Sound) (dest : SocketAddr) :
    (s.dropTo dest).1 = (q.dropTo dest).1 ∧ Mirrors (s.dropTo dest).2 (q.dropTo dest).2 := by
  have hgone : s.ring.filter (fun n => s.messages[n]?.any (·.dest == dest)) =
      (q.ring.filter (·.dest == dest)).map (·.sequence) := by
    rw [h.ring, List.filter_map]
    congr 1
    apply List.filter_congr
    intro m hm
    obtain ⟨slot, hslot, rfl, _⟩ := h.exists_slot (hq.find?_iff.mpr ⟨hm, rfl⟩)
    rw [Function.comp_apply, hslot, Option.any_some]
  unfold Store.dropTo Queue.dropTo
  rw [hgone]
  exact ⟨rfl, h.foldl_remove hq.distinct _⟩

/-! ## One message -/

theorem markWritten (h : Mirrors s q) (n : UInt64) :
    Mirrors (s.markWritten n) (q.markWritten n) := by
  unfold Store.markWritten
  cases hm : q.find? n with
  | none =>
    rw [h.eq_none hm, Queue.markWritten, Queue.update_of_none hm]
    exact h
  | some m =>
    obtain ⟨slot, hslot, rfl, hexact⟩ := h.exists_slot hm
    rw [hslot]
    exact h.put hm rfl hexact fun _ hn => hn

theorem acknowledge (h : Mirrors s q) (hq : q.Sound) (ack : Chunk.Header) :
    (s.acknowledge ack).1 = (q.acknowledge ack).1 ∧
      Mirrors (s.acknowledge ack).2 (q.acknowledge ack).2 := by
  unfold Store.acknowledge Queue.acknowledge
  cases hm : q.find? ack.sequence with
  | none =>
    rw [h.eq_none hm]
    exact ⟨rfl, h⟩
  | some m =>
    obtain ⟨slot, hslot, rfl, hexact⟩ := h.exists_slot hm
    have heq := hexact.acknowledge?_eq ack.total ack.index.toNat
    rw [hslot, Option.bind_some, ← heq]
    dsimp only
    cases ha : slot.acknowledge? ack.total ack.index.toNat with
    | none => exact ⟨rfl, h⟩
    | some slot' =>
      rw [ha] at heq
      have hsame : ∀ m : Message, m.sequence = ack.sequence → slot'.sequence = ack.sequence :=
        fun _ _ => Queue.acknowledge?_sequence hm heq.symm
      have hput : Mirrors (s.put ack.sequence slot')
          (q.update ack.sequence fun _ => slot'.toMessage) :=
        h.put hm rfl (hexact.acknowledge? ha) hsame
      refine ⟨rfl, ?_⟩
      dsimp only [Option.map_some]
      split
      · exact hput.remove (Queue.distinct_update hq.distinct _ _ hsame) _
      · exact hput

/-! ## Round the ring -/

/-- Changing the message at a place of the ring. -/
theorem put_at {c : Nat} (h : Mirrors s { q with ring := early ++ m :: late, cursor := c })
    (hd : Queue.Distinct (early ++ m :: late)) (hk : m'.sequence = m.sequence)
    (hslot : slot.toMessage = m') (hexact : slot.Exact) :
    Mirrors (s.put m.sequence slot) { q with ring := early ++ m' :: late, cursor := c } := by
  have hput := h.put (Queue.find?_at hd) (f := fun _ => m') hslot hexact fun _ hn => hk
  rwa [Queue.update_at { q with cursor := c } hd m'] at hput

/-- The message at the cursor is asked, and the cursor moves on. -/
theorem seek_succ {c : Nat} (h : Mirrors s { q with ring := early ++ m :: late, cursor := c })
    (hd : Queue.Distinct (early ++ m :: late))
    (hc : c = early.length % (early ++ m :: late).length) (turns : Nat) :
    ∃ s', Mirrors s' { q with
        ring := early ++ (m.emit q.maxFlight).2 :: late
        cursor := (early.length + 1) % (early ++ m :: late).length } ∧
      s.seek (turns + 1) = match (m.emit q.maxFlight).1 with
        | some chunk => (some chunk, s')
        | none => s'.seek turns := by
  have hlen : s.ring.length = (early ++ m :: late).length := by rw [h.ring, List.length_map]
  have hlt : early.length < (early ++ m :: late).length := by simp
  have hcursor : s.cursor = early.length := h.cursor.trans (hc.trans (Nat.mod_eq_of_lt hlt))
  have hplace : s.ring[early.length]? = some m.sequence := by
    rw [h.ring, List.map_append, List.map_cons, List.getElem?_append_right (by simp)]
    simp
  have hmoved : Mirrors { s with cursor := (early.length + 1) % s.ring.length }
      { q with
        ring := early ++ m :: late
        cursor := (early.length + 1) % (early ++ m :: late).length } :=
    ⟨h.chunkSize, h.maxFlight, h.nextNumber, by rw [hlen], h.ring, h.messages, h.exact⟩
  obtain ⟨slot, hslot, rfl, hexact⟩ := h.exists_slot (Queue.find?_at hd)
  obtain ⟨hout, hrest⟩ := slot.emit_eq q.maxFlight
  have hkin := (Message.emits_emit q.maxFlight slot.toMessage).kin
  refine ⟨_, hmoved.put_at hd hkin.sequence hrest (hexact.emit q.maxFlight), ?_⟩
  rw [seek, hcursor, if_pos (hlen ▸ hlt), hplace, ← hout]
  dsimp only
  rw [hslot, h.maxFlight]
  dsimp only
  cases slot.emit q.maxFlight with
  | mk chunk slot' => cases chunk <;> rfl

/-- Some of the messages are asked one after the other, until one has a chunk. -/
theorem seek {c : Nat} (h : Mirrors s { q with ring := early ++ (seg ++ late), cursor := c })
    (hd : Queue.Distinct (early ++ (seg ++ late)))
    (hc : c = early.length % (early ++ (seg ++ late)).length) (turns : Nat) :
    ∃ s', Mirrors s' { q with
        ring := early ++ ((Queue.emitFirst q.maxFlight seg).2.1 ++ late)
        cursor := (early.length + (Queue.emitFirst q.maxFlight seg).2.2) %
          (early ++ (seg ++ late)).length } ∧
      s.seek (seg.length + turns) = match (Queue.emitFirst q.maxFlight seg).1 with
        | some chunk => (some chunk, s')
        | none => s'.seek turns := by
  induction seg generalizing early s c with
  | nil =>
    refine ⟨s, hc ▸ h, ?_⟩
    rw [List.length_nil, Nat.zero_add]
    rfl
  | cons m seg ih =>
    obtain ⟨s₁, h₁, heq⟩ := h.seek_succ hd hc (seg.length + turns)
    rw [List.length_cons, Nat.add_right_comm, heq]
    cases ho : (m.emit q.maxFlight).1 with
    | some chunk =>
      rw [Queue.emitFirst_cons_some seg ho]
      exact ⟨s₁, h₁, rfl⟩
    | none =>
      have hkin := (Message.emits_emit q.maxFlight m).kin
      have hd' := Queue.distinct_at hd hkin.sequence
      have hcount : (early ++ [(m.emit q.maxFlight).2]).length = early.length + 1 := by simp
      have hlen : (early ++ [(m.emit q.maxFlight).2] ++ (seg ++ late)).length =
          (early ++ (m :: seg ++ late)).length := by simp
      rw [List.append_cons] at h₁
      obtain ⟨s', h', heq'⟩ := ih h₁ hd' (by rw [hcount, hlen]; rfl)
      rw [hcount, hlen, ← List.append_cons, Nat.add_assoc, Nat.add_comm 1] at h'
      rw [Queue.emitFirst_cons_none seg ho]
      exact ⟨s', h', heq'⟩

theorem next (h : Mirrors s q) (hq : q.Sound) (hp : q.Placed) :
    s.next.1 = q.next.1 ∧ Mirrors s.next.2 q.next.2 := by
  obtain ⟨early, late, hring, hcursor, hasks⟩ := hp.asks
  have hturns : s.ring.length = late.length + early.length := by
    rw [h.ring, List.length_map, hring, List.length_append, Nat.add_comm]
  have hmod : ∀ k ≤ early.length, k % (early ++ late).length = k := by
    intro k hk
    rcases hp with h0 | hlt
    · rw [Nat.eq_zero_of_le_zero (hk.trans (hcursor.symm.trans h0).le), Nat.zero_mod]
    · exact Nat.mod_eq_of_lt (by rw [← hring]; omega)
  have hd : Queue.Distinct (early ++ (late ++ [])) := by
    rw [List.append_nil, ← hring]
    exact hq.distinct
  have hstart : Mirrors s { q with ring := early ++ (late ++ []), cursor := q.cursor } := by
    rw [List.append_nil, ← hring]
    exact h
  obtain ⟨s₁, h₁, heq₁⟩ := hstart.seek hd
    (by rw [List.append_nil, hmod _ (Nat.le_refl _), hcursor]) early.length
  rw [List.append_nil, List.append_nil, ← hring] at h₁
  unfold Store.next
  rw [hturns, heq₁]
  rcases hasks with ⟨o, ho, hnext⟩ | ⟨hnone, hnext⟩
  · rw [ho, hnext]
    exact ⟨rfl, h₁⟩
  · -- nothing from the cursor on, so the rest of the turns starts at the front
    rw [hnone, hnext]
    have hnumbers := Queue.map_sequence_forall₂
      (Queue.forall₂_emitFirst q.maxFlight (l := late) (hd.sublist (by simp)))
      fun _ _ ha => ha.kin.sequence
    have hback : (early.length + (Queue.emitFirst q.maxFlight late).2.2) % q.ring.length = 0 := by
      rw [Queue.asked_of_none hnone, hring, List.length_append, Nat.mod_self]
    rw [hback] at h₁
    generalize (Queue.emitFirst q.maxFlight late).2.1 = late' at h₁ hnumbers ⊢
    have hd' : Queue.Distinct ([] ++ (early ++ late')) := by
      unfold Queue.Distinct at hd ⊢
      simpa [hnumbers] using hd
    have hlen : ([] ++ (early ++ late')).length = (early ++ late).length := by
      simpa using congrArg List.length hnumbers
    have hfront : Mirrors s₁ { q with ring := [] ++ (early ++ late'), cursor := 0 } := h₁
    obtain ⟨s₂, h₂, heq₂⟩ := hfront.seek hd' (Nat.zero_mod _).symm 0
    rw [List.length_nil, Nat.zero_add, hlen, hmod _ (Queue.asked_le _ _)] at h₂
    dsimp only
    rw [show early.length = early.length + 0 from rfl, heq₂]
    cases (Queue.emitFirst q.maxFlight early).1 <;> exact ⟨rfl, h₂⟩

/-! ## A tick -/

theorem tickOne {a b : Nat} (h : Mirrors s { q with ring := early ++ m :: late })
    (hd : Queue.Distinct (early ++ m :: late)) (t : Tick) (gone : List UInt64) :
    ∃ s', Mirrors s' { q with ring := early ++ (Queue.tickMessage q.maxFlight a b m).2.1 :: late } ∧
      Store.tickOne a b (s, t, gone) m.sequence =
        (s', ⟨t.resent + (Queue.tickMessage q.maxFlight a b m).2.2.resent,
            t.abandoned ++ (Queue.tickMessage q.maxFlight a b m).2.2.abandoned,
            t.purged + (Queue.tickMessage q.maxFlight a b m).2.2.purged⟩,
          gone ++ if (Queue.tickMessage q.maxFlight a b m).1 then [m.sequence] else []) := by
  obtain ⟨slot, hslot, rfl, hexact⟩ := h.exists_slot (Queue.find?_at hd)
  have hput := fun {m'} (slot' : Slot) (hk : m'.sequence = slot.sequence)
      (hslot' : slot'.toMessage = m') (hexact' : slot'.Exact) =>
    h.put_at (c := q.cursor) hd hk hslot' hexact'
  have ht := Message.ticks_tickMessage q.maxFlight a b slot.toMessage
  generalize Queue.tickMessage q.maxFlight a b slot.toMessage = result at ht ⊢
  obtain ⟨out, m', u⟩ := result
  dsimp only at ht ⊢
  cases ht with
  | finished kind sent idle =>
    refine ⟨s, h, ?_⟩
    simp [Store.tickOne, hslot, kind, Message.allSent, sent, idle]
  | unfinished kind busy =>
    refine ⟨s, h, ?_⟩
    have hnot : ¬ (slot.allSent && slot.queued == 0) = true := by
      rw [Bool.and_eq_true, Message.allSent, beq_iff_eq, beq_iff_eq]
      exact fun hc => busy.elim (· hc.1) (· hc.2)
    simp [Store.tickOne, hslot, kind, hnot]
  | abandoned kind late =>
    refine ⟨_, hput { slot with stalledTicks := slot.stalledTicks + 1 } rfl rfl hexact, ?_⟩
    simp [Store.tickOne, hslot, kind, late]
  | again kind early due =>
    have heq := Slot.Exact.requeueLost_eq
      (s := { slot with stalledTicks := slot.stalledTicks + 1 }) hexact q.maxFlight
    have hlost := congrArg Message.lost heq
    refine ⟨_, hput _ rfl heq hexact, ?_⟩
    unfold Store.tickOne
    dsimp only
    rw [hslot]
    dsimp only
    rw [if_neg (by simp [kind]), if_neg (Nat.not_le.mpr early), if_pos due,
      show s.maxFlight = q.maxFlight from h.maxFlight, hlost]
    simp [Message.requeueLost, Message.unacked]
  | waits kind early notDue =>
    refine ⟨_, hput { slot with stalledTicks := slot.stalledTicks + 1 } rfl rfl hexact, ?_⟩
    simp [Store.tickOne, hslot, kind, Nat.not_le.mpr early, Nat.not_le.mpr notDue]

theorem foldl_tickOne {a b : Nat} (h : Mirrors s { q with ring := early ++ seg })
    (hd : Queue.Distinct (early ++ seg)) (t : Tick) (gone : List UInt64) :
    ∃ s', Mirrors s' { q with
        ring := early ++ seg.map fun m => (Queue.tickMessage q.maxFlight a b m).2.1 } ∧
      (seg.map (·.sequence)).foldl (Store.tickOne a b) (s, t, gone) =
        (s', (seg.map (Queue.tickMessage q.maxFlight a b)).foldl (fun t (_, _, u) =>
            ⟨t.resent + u.resent, t.abandoned ++ u.abandoned, t.purged + u.purged⟩) t,
          gone ++ ((seg.map (Queue.tickMessage q.maxFlight a b)).filter (·.1)).map
            (·.2.1.sequence)) := by
  induction seg generalizing early s t gone with
  | nil => exact ⟨s, h, by simp⟩
  | cons m seg ih =>
    obtain ⟨s₁, h₁, heq⟩ := h.tickOne (a := a) (b := b) hd t gone
    have hk := Queue.tickMessage_sequence q.maxFlight a b m
    have hd' := Queue.distinct_at hd hk
    rw [List.append_cons] at h₁
    obtain ⟨s', h', heq'⟩ := ih h₁ hd' _ _
    rw [← List.append_cons] at h'
    refine ⟨s', h', ?_⟩
    rw [List.map_cons, List.foldl_cons, heq, heq', List.map_cons, List.foldl_cons, List.filter_cons]
    cases (Queue.tickMessage q.maxFlight a b m).1 <;> simp [hk]

theorem tick (h : Mirrors s q) (hq : q.Sound) (a b : Nat) :
    (s.tick a b).1 = (q.tick a b).1 ∧ Mirrors (s.tick a b).2 (q.tick a b).2 := by
  have hstart : Mirrors s { q with ring := [] ++ q.ring } := h
  obtain ⟨s', h', heq⟩ := hstart.foldl_tickOne (a := a) (b := b) hq.distinct {} []
  have hring : (q.ring.map (Queue.tickMessage q.maxFlight a b)).map (·.2.1) =
      q.ring.map fun m => (Queue.tickMessage q.maxFlight a b m).2.1 := by
    rw [List.map_map]
    rfl
  unfold Store.tick Queue.tick
  rw [h.ring, heq]
  dsimp only
  rw [hring]
  exact ⟨rfl, h'.foldl_remove (Queue.distinct_tick hq.distinct q.maxFlight a b) _⟩

end Mirrors

end Store

end Courier.Outbound
