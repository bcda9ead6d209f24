import Courier.Proofs.Reassembly.Run
import Mathlib.Algebra.BigOperators.Group.List.Basic
import Mathlib.Data.List.Dedup

/-!
What may arrive at a table, from senders that need not be honest, written down in a
ledger: the chunks that were taken, the first for each place, and the messages that were
delivered. The ledger knows nothing of buffers. Main statement: it explains every outcome
of every run. A message is delivered with the chunk that leaves none of its places free,
and what is delivered are the chunks that were taken for it, in order.
-/

namespace Courier.Reassembly

/-- A chunk that arrives. -/
structure Arrival where
  sender : SocketAddr
  header : Chunk.Header
  valid : header.Valid
  payload : Bytes
  now : Instant

namespace Arrival

def key (a : Arrival) : Key := (a.sender, a.header.sequence)

def index (a : Arrival) : Nat := a.header.index.toNat

def total (a : Arrival) : Nat := a.header.total.toNat

/-- Where the chunk ends in its message. -/
def stop (a : Arrival) (cs : Nat) : Nat := a.index * cs + a.payload.length

/-- A chunk is as long as all others, unless it is the final one. -/
def Legal (a : Arrival) (cs : Nat) : Prop :=
  if a.index + 1 = a.total then 0 < a.payload.length ∧ a.payload.length ≤ cs
  else a.payload.length = cs

instance (a : Arrival) (cs : Nat) : Decidable (a.Legal cs) := by
  unfold Legal
  infer_instance

end Arrival

/-- The end of the highest of some chunks of a message. -/
def reach (cs : Nat) : List Arrival → Nat
  | [] => 0
  | a :: taken => max (a.stop cs) (reach cs taken)

/-- The payload of the chunk for an index, among those that were taken. -/
def payloadAt (taken : List Arrival) (i : Nat) : Bytes :=
  ((taken.find? (·.index == i)).map (·.payload)).getD []

/-- Payloads of taken chunks in the order of their indices. -/
def inOrder (taken : List Arrival) (n : Nat) : Bytes := (List.range n).flatMap (payloadAt taken)

structure Ledger where
  chunkSize : Nat
  limit : Nat
  /-- the chunks taken for messages that are still incomplete, latest first -/
  taken : List Arrival := []
  /-- the messages delivered, and when -/
  delivered : List (Key × Instant) := []

namespace Ledger

/-- The chunks taken for one message since its entry was made, latest first. -/
def held (l : Ledger) (key : Key) : List Arrival := l.taken.filter (·.key = key)

/-- The bytes up to the highest chunk of each message, of all messages together. -/
def used (l : Ledger) : Nat :=
  ((l.taken.map (·.key)).dedup.map fun key => reach l.chunkSize (l.held key)).sum

/-- By how much a chunk makes its message longer. -/
def growth (l : Ledger) (a : Arrival) : Nat :=
  a.stop l.chunkSize - reach l.chunkSize (l.held a.key)

/-- A chunk that is accepted. -/
structure Accepts (l : Ledger) (a : Arrival) : Prop where
  undelivered : l.delivered.lookup a.key = none
  kind : a.header.kind ≠ .ack
  legal : a.Legal l.chunkSize
  /-- it agrees with the chunk that made the entry -/
  same : ∀ first ∈ (l.held a.key).getLast?,
    first.header.kind = a.header.kind ∧ first.header.total = a.header.total
  new : ∀ b ∈ l.held a.key, b.index ≠ a.index
  room : 0 < l.growth a → l.used + l.growth a ≤ l.limit

/-- A chunk that leads to no length beyond the range of the machine. -/
structure InRange (l : Ledger) (a : Arrival) : Prop where
  stop_le : a.stop l.chunkSize ≤ sizeMax
  used_le : 0 < l.growth a → l.used + l.growth a ≤ wordMax

def Takes (l : Ledger) (a : Arrival) : Prop := l.Accepts a ∧ l.InRange a

/-- With the chunk all chunks of its message were taken. -/
def Finishes (l : Ledger) (a : Arrival) : Prop :=
  ∀ i < a.total, ∃ b ∈ a :: l.held a.key, b.index = i

/-- The bytes of the message that a chunk finishes. -/
def message (l : Ledger) (a : Arrival) : Bytes := inOrder (a :: l.held a.key) a.total

instance (l : Ledger) (a : Arrival) : Decidable (l.Accepts a) :=
  decidable_of_iff
    (l.delivered.lookup a.key = none ∧ a.header.kind ≠ .ack ∧ a.Legal l.chunkSize ∧
      (∀ first ∈ (l.held a.key).getLast?,
        first.header.kind = a.header.kind ∧ first.header.total = a.header.total) ∧
      (∀ b ∈ l.held a.key, b.index ≠ a.index) ∧
      (0 < l.growth a → l.used + l.growth a ≤ l.limit))
    ⟨fun ⟨h1, h2, h3, h4, h5, h6⟩ => ⟨h1, h2, h3, h4, h5, h6⟩,
      fun ⟨h1, h2, h3, h4, h5, h6⟩ => ⟨h1, h2, h3, h4, h5, h6⟩⟩

instance (l : Ledger) (a : Arrival) : Decidable (l.InRange a) :=
  decidable_of_iff
    (a.stop l.chunkSize ≤ sizeMax ∧ (0 < l.growth a → l.used + l.growth a ≤ wordMax))
    ⟨fun ⟨h1, h2⟩ => ⟨h1, h2⟩, fun ⟨h1, h2⟩ => ⟨h1, h2⟩⟩

instance (l : Ledger) (a : Arrival) : Decidable (l.Takes a) :=
  inferInstanceAs (Decidable (_ ∧ _))

instance (l : Ledger) (a : Arrival) : Decidable (l.Finishes a) := by
  unfold Finishes
  infer_instance

def arrive (l : Ledger) (a : Arrival) : Ledger :=
  if l.Takes a then
    if l.Finishes a then
      { l with
        taken := l.taken.filter (·.key ≠ a.key)
        delivered := (a.key, a.now) :: l.delivered }
    else { l with taken := a :: l.taken }
  else l

/-- A message is young as long as the last chunk taken for it is. -/
def Young (l : Ledger) (now : Instant) (timeout : Duration) (key : Key) : Prop :=
  ∀ last ∈ (l.held key).head?, now - last.now < timeout.nanos

instance (l : Ledger) (now : Instant) (timeout : Duration) (key : Key) :
    Decidable (l.Young now timeout key) := by
  unfold Young
  infer_instance

def purge (l : Ledger) (now : Instant) (timeout retention : Duration) : Ledger :=
  { l with
    taken := l.taken.filter fun a => l.Young now timeout a.key
    delivered := l.delivered.filter fun x => now - x.2 < retention.nanos }

def step (l : Ledger) : Event → Ledger
  | .arrive sender header valid payload now => l.arrive ⟨sender, header, valid, payload, now⟩
  | .purge now timeout retention => l.purge now timeout retention

def run (chunkSize limit : Nat) (events : List Event) : Ledger :=
  events.foldl step { chunkSize, limit }

end Ledger

/-- What the ledger says about the outcome of an arrival. -/
structure Ledger.Explains (l : Ledger) (a : Arrival) (outcome : Outcome) : Prop where
  complete_iff : ∀ data,
    outcome = .complete data ↔ l.Takes a ∧ l.Finishes a ∧ data = l.message a
  incomplete_iff : outcome = .incomplete ↔ l.Takes a ∧ ¬ l.Finishes a
  /-- of all the chunks for an index one was taken, and its payload stands -/
  each : l.Takes a → ∀ b ∈ a :: l.held a.key, payloadAt (a :: l.held a.key) b.index = b.payload
  length : ∀ data, outcome = .complete data → data.length =
    (a.total - 1) * l.chunkSize + (payloadAt (a :: l.held a.key) (a.total - 1)).length
  /-- as long as the limit is the size of an object, it keeps everything in range -/
  inRange : l.limit ≤ sizeMax → l.Accepts a → l.InRange a

/-! ## Chunks that were taken for one message -/

theorem mem_held {l : Ledger} {key : Key} {a : Arrival} :
    a ∈ l.held key ↔ a ∈ l.taken ∧ a.key = key := by
  simp [Ledger.held]

theorem reach_le {cs n : Nat} {taken : List Arrival} (h : ∀ a ∈ taken, a.stop cs ≤ n) :
    reach cs taken ≤ n := by
  induction taken with
  | nil => exact Nat.zero_le n
  | cons a taken ih =>
    exact Nat.max_le.mpr ⟨h a List.mem_cons_self, ih fun b hb => h b (List.mem_cons_of_mem a hb)⟩

theorem payloadAt_cons (a : Arrival) (taken : List Arrival) (i : Nat) :
    payloadAt (a :: taken) i = if a.index = i then a.payload else payloadAt taken i := by
  unfold payloadAt
  by_cases hi : a.index = i <;> simp [hi]

/-- An incomplete message is the chunks that were taken for it. -/
structure Partial.Holds (cs : Nat) (m : Partial) (taken : List Arrival) : Prop where
  first : ∃ first ∈ taken.getLast?, first.header.kind = m.kind ∧ first.header.total = m.total
  last : ∃ last ∈ taken.head?, last.now = m.lastSeen
  pieces : ∀ i, m.pieces[i]? = (taken.find? (·.index == i)).map (·.payload)
  extent : m.extent = reach cs taken

/-- The table holds what the ledger says. -/
structure Mirrors (l : Ledger) (r : Reassembly) : Prop where
  size : r.chunkSize = l.chunkSize
  limit : r.maxPartialBytes = l.limit
  sound : r.Sound
  delivered : r.completed = l.delivered
  absent : ∀ key, r.find? key = none → l.held key = []
  present : ∀ key m, r.find? key = some m → m.Holds l.chunkSize (l.held key)
  each : ∀ key, ∀ b ∈ l.held key, payloadAt (l.held key) b.index = b.payload

namespace Mirrors

variable {l : Ledger} {r : Reassembly}

theorem exists_of_held (h : Mirrors l r) {key : Key} (hne : l.held key ≠ []) :
    ∃ m, r.find? key = some m := by
  cases hf : r.find? key with
  | none => exact absurd (h.absent key hf) hne
  | some m => exact ⟨m, rfl⟩

theorem held_ne_nil (h : Mirrors l r) {key : Key} {m : Partial} (hm : r.find? key = some m) :
    l.held key ≠ [] := by
  obtain ⟨first, hfirst, _⟩ := (h.present key m hm).first
  intro hnil
  rw [hnil] at hfirst
  cases hfirst

/-- The table counts what the messages of the ledger take up. -/
theorem used_eq (h : Mirrors l r) : r.buffered = l.used := by
  have hextent : ∀ x ∈ r.messages, x.2.extent = reach l.chunkSize (l.held x.1) := fun x hx =>
    (h.present x.1 x.2 ((lookup_eq_some_iff h.sound.distinct).mpr hx)).extent
  have hkeys : (r.messages.map (·.1)).Perm (l.taken.map (·.key)).dedup := by
    refine (List.perm_ext_iff_of_nodup h.sound.distinct (List.nodup_dedup _)).mpr fun key => ?_
    rw [mem_keys_iff, List.mem_dedup, List.mem_map]
    constructor
    · rintro ⟨m, hm⟩
      obtain ⟨a, ha⟩ := List.exists_mem_of_ne_nil _ (h.held_ne_nil hm)
      exact ⟨a, mem_held.mp ha⟩
    · rintro ⟨a, ha⟩
      exact h.exists_of_held (List.ne_nil_of_mem (mem_held.mpr ha))
  have htotal : ∀ ms : List (Key × Partial), total ms = (ms.map (·.2.extent)).sum := by
    intro ms
    induction ms with
    | nil => rfl
    | cons x ms ih => simp [ih]
  calc r.buffered = (r.messages.map (·.2.extent)).sum := by rw [h.sound.buffered_eq, htotal]
    _ = ((r.messages.map (·.1)).map fun key => reach l.chunkSize (l.held key)).sum := by
        rw [List.map_map, List.map_congr_left hextent]
        rfl
    _ = l.used := (hkeys.map _).sum_eq

/-! ## The message that a chunk goes into -/

variable {a : Arrival}

theorem target_cases (h : Mirrors l r) (a : Arrival) :
    l.held a.key = [] ∧ r.target a.key a.header a.now = .unseen a.header a.now ∨
      (r.target a.key a.header a.now).Holds l.chunkSize (l.held a.key) := by
  cases hf : r.find? a.key with
  | none => exact Or.inl ⟨h.absent _ hf, target_eq_unseen hf⟩
  | some m => exact Or.inr (target_eq hf ▸ h.present _ m hf)

theorem target_pieces (h : Mirrors l r) (a : Arrival) (i : Nat) :
    (r.target a.key a.header a.now).pieces[i]? =
      ((l.held a.key).find? (·.index == i)).map (·.payload) := by
  rcases h.target_cases a with ⟨hnil, ht⟩ | hh
  · rw [hnil, ht]
    simp [Partial.unseen]
  · exact hh.pieces i

theorem target_extent (h : Mirrors l r) (a : Arrival) :
    (r.target a.key a.header a.now).extent = reach l.chunkSize (l.held a.key) := by
  rcases h.target_cases a with ⟨hnil, ht⟩ | hh
  · rw [hnil, ht]
    rfl
  · exact hh.extent

theorem same_iff (h : Mirrors l r) (a : Arrival) :
    (∀ first ∈ (l.held a.key).getLast?,
      first.header.kind = a.header.kind ∧ first.header.total = a.header.total) ↔
    (r.target a.key a.header a.now).total = a.header.total ∧
      (r.target a.key a.header a.now).kind = a.header.kind := by
  rcases h.target_cases a with ⟨hnil, ht⟩ | hh
  · rw [hnil, ht]
    simp [Partial.unseen]
  · obtain ⟨first, hfirst, hkind, htotal⟩ := hh.first
    rw [Option.mem_def.mp hfirst, ← hkind, ← htotal]
    simp [and_comm]

theorem absent_iff (h : Mirrors l r) (a : Arrival) :
    (∀ b ∈ l.held a.key, b.index ≠ a.index) ↔
      a.header.index.toNat ∉ (r.target a.key a.header a.now).pieces := by
  rw [Std.TreeMap.mem_iff_isSome_getElem?, h.target_pieces]
  simp [Arrival.index]

theorem growth_eq (h : Mirrors l r) (a : Arrival) :
    r.growth a.key a.header a.payload a.now = l.growth a := by
  rw [growth, h.target_extent, h.size]
  rfl

theorem inRange_iff (h : Mirrors l r) (a : Arrival) :
    l.InRange a ↔ r.InRange a.key a.header a.payload a.now := by
  have hstop : a.header.index.toNat * r.chunkSize + a.payload.length = a.stop l.chunkSize := by
    rw [h.size]
    rfl
  constructor
  · rintro ⟨hle, hused⟩
    exact ⟨by rwa [hstop], by rwa [h.growth_eq, h.used_eq]⟩
  · rintro ⟨hle, hused⟩
    rw [hstop] at hle
    rw [h.growth_eq, h.used_eq] at hused
    exact ⟨hle, hused⟩

theorem legal_iff (h : Mirrors l r) (a : Arrival) : a.Legal l.chunkSize ↔
    r.lengthFault (a.header.index.toNat + 1 == a.header.total.toNat) a.payload.length = none := by
  rw [lengthFault_eq_none_iff, h.size]
  unfold Arrival.Legal Arrival.index Arrival.total
  by_cases hl : a.header.index.toNat + 1 = a.header.total.toNat <;> simp [hl]

theorem accepts_iff (h : Mirrors l r) (a : Arrival) :
    l.Accepts a ↔ r.Acceptable a.key a.header a.payload a.now ∧
      (0 < l.growth a → l.used + l.growth a ≤ l.limit) := by
  constructor
  · rintro ⟨hopen, hkind, hlegal, hsame, hnew, hroom⟩
    obtain ⟨htotal, hsame⟩ := (h.same_iff a).mp hsame
    exact ⟨⟨h.delivered ▸ hopen, hkind, (h.legal_iff a).mp hlegal, htotal, hsame,
      (h.absent_iff a).mp hnew⟩, hroom⟩
  · rintro ⟨⟨hopen, hkind, hlegal, htotal, hsame, hnew⟩, hroom⟩
    exact ⟨h.delivered ▸ hopen, hkind, (h.legal_iff a).mpr hlegal,
      (h.same_iff a).mpr ⟨htotal, hsame⟩, (h.absent_iff a).mpr hnew, hroom⟩

theorem filled_pieces (h : Mirrors l r) (a : Arrival) (i : Nat) :
    (r.filled a.key a.header a.payload a.now).pieces[i]? =
      ((a :: l.held a.key).find? (·.index == i)).map (·.payload) := by
  rw [filled, Partial.getElem?_add, h.target_pieces]
  by_cases hi : a.index = i
  · simp [hi, show a.header.index.toNat = i from hi]
  · simp [hi, show a.header.index.toNat ≠ i from hi]

theorem piece_filled (h : Mirrors l r) (a : Arrival) (i : Nat) :
    (r.filled a.key a.header a.payload a.now).piece i = payloadAt (a :: l.held a.key) i := by
  rw [Partial.piece, Std.TreeMap.getD_eq_getD_getElem?, h.filled_pieces]
  rfl

theorem filled_extent (h : Mirrors l r) (a : Arrival) :
    (r.filled a.key a.header a.payload a.now).extent = reach l.chunkSize (a :: l.held a.key) := by
  rw [extent_filled, h.target_extent, h.growth_eq, reach, Ledger.growth]
  omega

theorem holds_filled (h : Mirrors l r) (ha : r.Acceptable a.key a.header a.payload a.now) :
    (r.filled a.key a.header a.payload a.now).Holds l.chunkSize (a :: l.held a.key) where
  first := by
    have htotal : (r.filled a.key a.header a.payload a.now).total = a.header.total := ha.sameTotal
    have hkind : (r.filled a.key a.header a.payload a.now).kind = a.header.kind := ha.sameKind
    have hsame := (h.same_iff a).mpr ⟨ha.sameTotal, ha.sameKind⟩
    rw [htotal, hkind, List.getLast?_cons]
    cases hl : (l.held a.key).getLast? with
    | none => exact ⟨a, rfl, rfl, rfl⟩
    | some first => exact ⟨first, rfl, hsame first hl⟩
  last := ⟨a, rfl, rfl⟩
  pieces := h.filled_pieces a
  extent := h.filled_extent a

theorem finishes_iff (h : Mirrors l r) (ha : r.Acceptable a.key a.header a.payload a.now) :
    l.Finishes a ↔ a.total ≤ (r.filled a.key a.header a.payload a.now).pieces.size := by
  have hfits := h.sound.filled_fits a.valid ha
  have hmem : ∀ i, i ∈ (r.filled a.key a.header a.payload a.now).pieces ↔
      ∃ b ∈ a :: l.held a.key, b.index = i := fun i => by
    rw [Std.TreeMap.mem_iff_isSome_getElem?, h.filled_pieces, Option.isSome_map,
      List.find?_isSome]
    simp
  have htotal : (r.filled a.key a.header a.payload a.now).total.toNat = a.total :=
    congrArg UInt16.toNat ha.sameTotal
  constructor
  · exact fun hall => Partial.le_size fun i hi => (hmem i).mpr (hall i hi)
  · exact fun hle i hi =>
      (hmem i).mp (Partial.mem_of_full hfits (htotal ▸ hle) (htotal ▸ hi))

theorem total_pos (a : Arrival) : 0 < a.total := by
  have : a.header.index.toNat < a.header.total.toNat := UInt16.lt_iff_toNat_lt.mp a.valid
  unfold Arrival.total
  omega

/-- The bytes of a full message are those of the ledger, and all its chunks but the last
have the same length. -/
theorem data_filled (h : Mirrors l r) (ha : r.Acceptable a.key a.header a.payload a.now)
    (hall : a.total ≤ (r.filled a.key a.header a.payload a.now).pieces.size) :
    (r.filled a.key a.header a.payload a.now).data r.chunkSize = l.message a ∧
      (l.message a).length = (a.total - 1) * l.chunkSize +
        (payloadAt (a :: l.held a.key) (a.total - 1)).length := by
  have hfits := h.sound.filled_fits a.valid ha
  have htotal : (r.filled a.key a.header a.payload a.now).total.toNat = a.total :=
    congrArg UInt16.toNat ha.sameTotal
  have hpos := total_pos a
  have hpiece : (r.filled a.key a.header a.payload a.now).piece = payloadAt (a :: l.held a.key) :=
    funext (h.piece_filled a)
  have hfull : ∀ i < a.total - 1, (payloadAt (a :: l.held a.key) i).length = l.chunkSize := by
    intro i hi
    rw [← h.piece_filled, ← h.size]
    exact hfits.length_full i _ (Partial.getElem?_of_full hfits (htotal ▸ hall) (by omega))
      (by omega)
  constructor
  · rw [Partial.data_of_full hfits (by omega) (by omega), htotal, hpiece]
    rfl
  · obtain ⟨k, hk⟩ : ∃ k, a.total = k + 1 := ⟨a.total - 1, by omega⟩
    rw [hk, Nat.add_sub_cancel] at hfull ⊢
    rw [Ledger.message, inOrder, hk, List.range_succ, List.flatMap_append,
      List.flatMap_singleton, List.length_append, Partial.length_flatMap_full hfull]

/-! ## Steps -/

theorem used_le (h : Mirrors l r) : l.used ≤ l.limit :=
  h.used_eq ▸ h.limit ▸ h.sound.buffered_le

theorem reach_le_used (h : Mirrors l r) (a : Arrival) :
    reach l.chunkSize (l.held a.key) ≤ l.used := by
  have htotal := h.sound.total_target a.key a.header a.now
  rw [h.used_eq, h.target_extent] at htotal
  omega

/-- A limit that an object fits leaves no way out of range. -/
theorem inRange_of_accepts (h : Mirrors l r) (hlimit : l.limit ≤ sizeMax) (ha : l.Accepts a) :
    l.InRange a := by
  have hroom := ha.room
  have hword : sizeMax < wordMax := by decide
  have hreach := h.reach_le_used a
  have hle := h.used_le
  unfold Ledger.growth at hroom
  constructor
  · omega
  · unfold Ledger.growth
    omega

/-- The payload of each taken chunk stands, also with a new one. -/
theorem each_cons (h : Mirrors l r) (ha : l.Accepts a) :
    ∀ b ∈ a :: l.held a.key, payloadAt (a :: l.held a.key) b.index = b.payload := by
  intro b hb
  rw [payloadAt_cons]
  rcases List.mem_cons.mp hb with rfl | hb
  · rw [if_pos rfl]
  · rw [if_neg (Ne.symm (ha.new b hb)), h.each a.key b hb]

/-- A chunk that is not taken changes nothing and delivers nothing. -/
theorem refuse (h : Mirrors l r) (hnot : ¬ l.Takes a) {outcome : Outcome}
    (hc : ∀ data, outcome ≠ .complete data) (hn : outcome ≠ .incomplete) :
    l.Explains a outcome ∧ Mirrors (l.arrive a) r := by
  refine ⟨?_, by rwa [Ledger.arrive, if_neg hnot]⟩
  exact {
    complete_iff := fun data => ⟨fun he => absurd he (hc data), fun ht => absurd ht.1 hnot⟩
    incomplete_iff := ⟨fun he => absurd he hn, fun ht => absurd ht.1 hnot⟩
    each := fun ht => absurd ht hnot
    length := fun data he => absurd he (hc data)
    inRange := h.inRange_of_accepts }

/-- A change to one message. -/
theorem change (h : Mirrors l r) {l' : Ledger} {r' : Reassembly} (key : Key)
    (size : r'.chunkSize = l'.chunkSize ∧ l'.chunkSize = l.chunkSize)
    (limit : r'.maxPartialBytes = l'.limit) (sound : r'.Sound)
    (delivered : r'.completed = l'.delivered) (held : ∀ k ≠ key, l'.held k = l.held k)
    (find : ∀ k ≠ key, r'.find? k = r.find? k) (absent : r'.find? key = none → l'.held key = [])
    (present : ∀ m, r'.find? key = some m → m.Holds l.chunkSize (l'.held key))
    (each : ∀ b ∈ l'.held key, payloadAt (l'.held key) b.index = b.payload) : Mirrors l' r' := by
  refine ⟨size.1, limit, sound, delivered, ?_, ?_, ?_⟩
  · intro k hk
    by_cases heq : k = key
    · exact heq ▸ absent (heq ▸ hk)
    · rw [held k heq]
      exact h.absent k (find k heq ▸ hk)
  · intro k m hm
    rw [size.2]
    by_cases heq : k = key
    · exact heq ▸ present m (heq ▸ hm)
    · rw [held k heq]
      exact h.present k m (find k heq ▸ hm)
  · intro k
    by_cases heq : k = key
    · exact heq ▸ each
    · rw [held k heq]
      exact h.each k

theorem keep (h : Mirrors l r) (ht : l.Takes a) (hf : ¬ l.Finishes a)
    (hr : (r.keep a.key a.header a.payload a.now).Sound) :
    Mirrors (l.arrive a) (r.keep a.key a.header a.payload a.now) := by
  have hacc := ((h.accepts_iff a).mp ht.1).1
  rw [Ledger.arrive, if_pos ht, if_neg hf]
  have hself : ({ l with taken := a :: l.taken } : Ledger).held a.key = a :: l.held a.key := by
    simp [Ledger.held]
  refine h.change a.key ⟨h.size, rfl⟩ h.limit hr h.delivered (fun k hk => ?_) (fun k hk => ?_)
    (fun hnone => ?_) (fun m hm => ?_) ?_
  · simp [Ledger.held, Ne.symm hk]
  · rw [find?_keep, if_neg hk]
  · rw [find?_keep, if_pos rfl] at hnone
    cases hnone
  · rw [find?_keep, if_pos rfl] at hm
    cases hm
    rw [hself]
    exact h.holds_filled hacc
  · rw [hself]
    exact h.each_cons ht.1

theorem finish (h : Mirrors l r) (ht : l.Takes a) (hf : l.Finishes a)
    (hr : (r.finish a.key a.header a.payload a.now).Sound) :
    Mirrors (l.arrive a) (r.finish a.key a.header a.payload a.now) := by
  rw [Ledger.arrive, if_pos ht, if_pos hf]
  have hself : (l.taken.filter (·.key ≠ a.key)).filter (·.key = a.key) = [] := by
    rw [List.filter_filter, List.filter_eq_nil_iff]
    simp
  refine h.change a.key ⟨h.size, rfl⟩ h.limit hr (congrArg _ h.delivered) (fun k hk => ?_)
    (fun k hk => ?_) (fun _ => hself) (fun m hm => ?_) ?_
  · unfold Ledger.held
    rw [List.filter_filter]
    refine List.filter_congr fun b _ => ?_
    by_cases hb : b.key = k <;> simp [hb, hk]
  · rw [find?_finish, if_neg hk]
  · rw [find?_finish, if_pos rfl] at hm
    cases hm
  · intro b hb
    change b ∈ (l.taken.filter (·.key ≠ a.key)).filter (·.key = a.key) at hb
    rw [hself] at hb
    cases hb

theorem purge (h : Mirrors l r) (now : Instant) (timeout retention : Duration) :
    Mirrors (l.purge now timeout retention) (r.purge now timeout retention).2 := by
  have hfind := fun k => h.sound.find?_purge now timeout retention k
  have hheld : ∀ k, (l.purge now timeout retention).held k =
      if l.Young now timeout k then l.held k else [] := fun k => by
    unfold Ledger.held Ledger.purge
    rw [List.filter_filter]
    by_cases hy : l.Young now timeout k
    · rw [if_pos hy]
      refine List.filter_congr fun b _ => ?_
      by_cases hb : b.key = k <;> simp [hb, hy]
    · rw [if_neg hy, List.filter_eq_nil_iff]
      simp only [Bool.and_eq_true, decide_eq_true_eq, not_and]
      exact fun b _ hb => hb ▸ hy
  -- the last chunk taken is the last one seen
  have hyoung : ∀ k m, r.find? k = some m →
      (l.Young now timeout k ↔ now - m.lastSeen < timeout.nanos) := fun k m hm => by
    obtain ⟨last, hlast, hseen⟩ := (h.present k m hm).last
    unfold Ledger.Young
    rw [Option.mem_def.mp hlast, ← hseen]
    simp
  refine ⟨?_, ?_, h.sound.purge now timeout retention, ?_, ?_, ?_, ?_⟩
  · rw [purge_snd]
    exact h.size
  · rw [purge_snd]
    exact h.limit
  · rw [purge_snd]
    exact congrArg (List.filter _) h.delivered
  · intro k hk
    rw [hheld]
    rw [hfind] at hk
    cases hf : r.find? k with
    | none => rw [h.absent k hf, ite_self]
    | some m =>
      rw [hf] at hk
      have hold : ¬ now - m.lastSeen < timeout.nanos := by simpa using hk
      exact if_neg fun hy => hold ((hyoung k m hf).mp hy)
  · intro k m hm
    rw [hfind, Option.filter_eq_some_iff] at hm
    rw [hheld, if_pos ((hyoung k m hm.1).mpr (of_decide_eq_true hm.2))]
    exact h.present k m hm.1
  · intro k
    rw [hheld]
    split
    · exact h.each k
    · simp

/-- The ledger explains what becomes of a chunk, and goes on mirroring the table. -/
theorem inserts (h : Mirrors l r) (a : Arrival) {outcome : Outcome} {r' : Reassembly}
    (hi : Inserts r a.key a.header a.payload a.now outcome r') :
    l.Explains a outcome ∧ Mirrors (l.arrive a) r' := by
  have hsound := h.sound.inserts a.valid hi
  cases hi with
  | known done =>
    have hnot : ¬ l.Takes a := fun ht => by
      rw [h.delivered, ht.1.undelivered] at done
      cases done
    exact h.refuse hnot (by simp) (by simp)
  | held _ present =>
    have hnot : ¬ l.Takes a := fun ht => (h.absent_iff a).mp ht.1.new present
    exact h.refuse hnot (by simp) (by simp)
  | refused reason _ fault =>
    have hnot : ¬ l.Takes a := fun ht => by
      obtain ⟨_, hkind, hsized, htotal, hsame, _⟩ := ((h.accepts_iff a).mp ht.1).1
      rcases fault with ⟨_, hack⟩ | hfault | ⟨_, hdiffers⟩ | ⟨_, hdiffers⟩
      · exact hkind hack
      · rw [hsized] at hfault
        cases hfault
      · exact hdiffers htotal
      · exact hdiffers hsame
    exact h.refuse hnot (by simp) (by simp)
  | crowded _ noRoom =>
    have hnot : ¬ l.Takes a := fun ht => by
      have hle := h.used_le
      have hroom := ht.1.room
      rw [h.growth_eq, h.used_eq, h.limit] at noRoom
      omega
    exact h.refuse hnot (by simp) (by simp)
  | beyond _ outside =>
    have hnot : ¬ l.Takes a := fun ht => outside ((h.inRange_iff a).mp ht.2)
    exact h.refuse hnot (by simp) (by simp)
  | stored acceptable room missing inRange =>
    rw [h.growth_eq, h.used_eq, h.limit] at room
    have ht : l.Takes a := ⟨(h.accepts_iff a).mpr ⟨acceptable, room⟩, (h.inRange_iff a).mpr inRange⟩
    have hf : ¬ l.Finishes a := fun hf =>
      absurd ((h.finishes_iff acceptable).mp hf) (Nat.not_le.mpr missing)
    refine ⟨⟨?_, ?_, fun _ => h.each_cons ht.1, by simp, h.inRange_of_accepts⟩, h.keep ht hf hsound⟩
    · simp [hf]
    · simp [ht, hf]
  | completed acceptable room all inRange =>
    rw [h.growth_eq, h.used_eq, h.limit] at room
    have ht : l.Takes a := ⟨(h.accepts_iff a).mpr ⟨acceptable, room⟩, (h.inRange_iff a).mpr inRange⟩
    have hf : l.Finishes a := (h.finishes_iff acceptable).mpr all
    obtain ⟨hdata, hlength⟩ := h.data_filled acceptable all
    refine ⟨⟨?_, ?_, fun _ => h.each_cons ht.1, ?_, h.inRange_of_accepts⟩, h.finish ht hf hsound⟩
    · simp [ht, hf, hdata, eq_comm]
    · simp [hf]
    · rintro data ⟨⟩
      rw [hdata, hlength]

theorem arrive (h : Mirrors l r) (a : Arrival) :
    l.Explains a (r.insert a.sender a.header a.payload a.now).1 ∧
      Mirrors (l.arrive a) (r.insert a.sender a.header a.payload a.now).2 :=
  h.inserts a (inserts_insert r a.sender a.valid a.payload a.now)

theorem step (h : Mirrors l r) (e : Event) : Mirrors (l.step e) (r.step e) := by
  cases e with
  | arrive sender header valid payload now =>
    exact (h.arrive ⟨sender, header, valid, payload, now⟩).2
  | purge now timeout retention => exact h.purge now timeout retention

end Mirrors

/-! ## Every run -/

theorem mirrors_empty (chunkSize limit : Nat) :
    Mirrors { chunkSize, limit } { chunkSize, maxPartialBytes := limit } where
  size := rfl
  limit := rfl
  sound := sound_empty chunkSize limit
  delivered := rfl
  absent := fun _ _ => rfl
  present := fun _ _ hm => by cases hm
  each := fun _ _ hb => by cases hb

theorem mirrors_run (chunkSize limit : Nat) (events : List Event) :
    Mirrors (.run chunkSize limit events) (run chunkSize limit events) := by
  have hfold : ∀ {l : Ledger} {r : Reassembly}, Mirrors l r →
      Mirrors (events.foldl Ledger.step l) (events.foldl Reassembly.step r) := by
    induction events with
    | nil => exact id
    | cons e events ih => exact fun h => ih (h.step e)
  exact hfold (mirrors_empty chunkSize limit)

/-- After every run, whatever arrived, and whatever arrives next. -/
theorem explains_run (chunkSize limit : Nat) (events : List Event) (a : Arrival) :
    (Ledger.run chunkSize limit events).Explains a
      ((run chunkSize limit events).insert a.sender a.header a.payload a.now).1 :=
  ((mirrors_run chunkSize limit events).arrive a).1

end Courier.Reassembly
