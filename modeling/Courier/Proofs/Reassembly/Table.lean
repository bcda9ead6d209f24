import Courier.Proofs.Chunk.Codec
import Courier.Proofs.Lists
import Courier.Proofs.Reassembly.Partial

/-!
The table of incomplete and of completed messages, seen through one key: what an
arriving chunk and a purge do to it, and the invariants that both keep: `Tallied` for chunks
with any header, and `Sound` for those with a valid one.
-/

namespace Courier.Reassembly

/-! ## An arriving chunk, case by case -/

/-- The message that a chunk goes into. -/
def target (r : Reassembly) (key : Key) (h : Chunk.Header) (now : Instant) : Partial :=
  (r.find? key).getD (Partial.unseen h now)

/-- The message with the chunk in it. -/
def filled (r : Reassembly) (key : Key) (h : Chunk.Header) (payload : Bytes) (now : Instant) :
    Partial :=
  (r.target key h now).add r.chunkSize h.index.toNat (h.index.toNat + 1 == h.total.toNat) payload
    now

/-- By how much the chunk makes the buffer of its message longer. -/
def growth (r : Reassembly) (key : Key) (h : Chunk.Header) (payload : Bytes) (now : Instant) :
    Nat :=
  h.index.toNat * r.chunkSize + payload.length - (r.target key h now).extent

/-- The table with the chunk in a message that is still incomplete. -/
def keep (r : Reassembly) (key : Key) (h : Chunk.Header) (payload : Bytes) (now : Instant) :
    Reassembly :=
  { r.put key (r.filled key h payload now) with
    buffered := r.buffered + r.growth key h payload now }

/-- The table with the message of the chunk completed. -/
def finish (r : Reassembly) (key : Key) (h : Chunk.Header) (payload : Bytes) (now : Instant) :
    Reassembly :=
  { r with
    buffered := r.buffered + r.growth key h payload now - (r.filled key h payload now).extent
    messages := r.messages.filter (·.1 ≠ key)
    completed := (key, now) :: r.completed }

/-- A chunk that its message can take. -/
structure Acceptable (r : Reassembly) (key : Key) (h : Chunk.Header) (payload : Bytes)
    (now : Instant) : Prop where
  unfinished : r.completed.lookup key = none
  kind : h.kind ≠ .ack
  sized : r.lengthFault (h.index.toNat + 1 == h.total.toNat) payload.length = none
  sameTotal : (r.target key h now).total = h.total
  sameKind : (r.target key h now).kind = h.kind
  absent : h.index.toNat ∉ (r.target key h now).pieces

/-- With the chunk its message and all buffers stay within the range of the machine. -/
structure InRange (r : Reassembly) (key : Key) (h : Chunk.Header) (payload : Bytes)
    (now : Instant) : Prop where
  stop_le : h.index.toNat * r.chunkSize + payload.length ≤ sizeMax
  buffered_le : 0 < r.growth key h payload now →
    r.buffered + r.growth key h payload now ≤ wordMax

/-- Everything that a chunk with a valid header can do to the table. -/
inductive Inserts (r : Reassembly) (key : Key) (h : Chunk.Header) (payload : Bytes)
    (now : Instant) : Outcome → Reassembly → Prop
  /-- its message is complete already -/
  | known (done : (r.completed.lookup key).isSome) : Inserts r key h payload now .duplicate r
  /-- the chunk is here already -/
  | held (unfinished : r.completed.lookup key = none)
      (present : h.index.toNat ∈ (r.target key h now).pieces) :
      Inserts r key h payload now .duplicate r
  | refused (reason : Reason) (unfinished : r.completed.lookup key = none)
      (fault : reason = .ackChunk ∧ h.kind = .ack ∨
        r.lengthFault (h.index.toNat + 1 == h.total.toNat) payload.length = some reason ∨
        reason = .totalDiffers ∧ (r.target key h now).total ≠ h.total ∨
        reason = .kindDiffers ∧ (r.target key h now).kind ≠ h.kind) :
      Inserts r key h payload now (.rejected reason) r
  /-- there is no room in the buffers -/
  | crowded (acceptable : r.Acceptable key h payload now)
      (noRoom : r.maxPartialBytes < r.buffered + r.growth key h payload now) :
      Inserts r key h payload now (.rejected .bufferLimit) r
  | beyond (acceptable : r.Acceptable key h payload now)
      (outside : ¬ r.InRange key h payload now) : Inserts r key h payload now .outOfRange r
  | stored (acceptable : r.Acceptable key h payload now)
      (room : 0 < r.growth key h payload now →
        r.buffered + r.growth key h payload now ≤ r.maxPartialBytes)
      (missing : (r.filled key h payload now).pieces.size < h.total.toNat)
      (inRange : r.InRange key h payload now) :
      Inserts r key h payload now .incomplete (r.keep key h payload now)
  | completed (acceptable : r.Acceptable key h payload now)
      (room : 0 < r.growth key h payload now →
        r.buffered + r.growth key h payload now ≤ r.maxPartialBytes)
      (all : h.total.toNat ≤ (r.filled key h payload now).pieces.size)
      (inRange : r.InRange key h payload now) :
      Inserts r key h payload now (.complete ((r.filled key h payload now).data r.chunkSize))
        (r.finish key h payload now)

theorem inserts_store {r : Reassembly} {key : Key} {h : Chunk.Header} {payload : Bytes}
    {now : Instant} (acceptable : r.Acceptable key h payload now) :
    Inserts r key h payload now
      (r.store key (r.target key h now) h.index.toNat (h.index.toNat + 1 == h.total.toNat)
        payload now).1
      (r.store key (r.target key h now) h.index.toNat (h.index.toNat + 1 == h.total.toNat)
        payload now).2 := by
  have hgrowth : r.growth key h payload now =
    h.index.toNat * r.chunkSize + payload.length - (r.target key h now).extent := rfl
  have hsize : sizeMax < wordMax := by decide
  unfold store
  dsimp only
  split
  · exact .beyond acceptable fun hin => absurd hin.stop_le (by omega)
  split
  · exact .beyond acceptable fun hin => absurd (hin.buffered_le (by omega)) (by omega)
  split
  · exact .crowded acceptable (by omega)
  split
  · exact .beyond acceptable fun hin => absurd hin.stop_le (by omega)
  have hin : r.InRange key h payload now := ⟨by omega, fun _ => by omega⟩
  have hroom : 0 < r.growth key h payload now →
      r.buffered + r.growth key h payload now ≤ r.maxPartialBytes := by omega
  split
  · rename_i hmissing
    rw [acceptable.sameTotal] at hmissing
    exact .stored acceptable hroom hmissing hin
  · rename_i hall
    rw [acceptable.sameTotal] at hall
    exact .completed acceptable hroom (Nat.not_lt.mp hall) hin

/-- What a chunk does to the table if it is known whether the chunk is the final one. -/
theorem inserts_of_isLast? (r : Reassembly) (sender : SocketAddr) {h : Chunk.Header}
    (hlast : h.isLast? = some (h.index.toNat + 1 == h.total.toNat)) (payload : Bytes)
    (now : Instant) :
    Inserts r (sender, h.sequence) h payload now (r.insert sender h payload now).1
      (r.insert sender h payload now).2 := by
  unfold insert isCompleted
  dsimp only
  by_cases hdone : (r.completed.lookup (sender, h.sequence)).isSome = true
  · rw [if_pos hdone]
    exact .known hdone
  rw [if_neg hdone]
  have hnone : r.completed.lookup (sender, h.sequence) = none :=
    Option.not_isSome_iff_eq_none.mp hdone
  by_cases hkind : h.kind = .ack
  · rw [if_pos hkind]
    exact .refused _ hnone (Or.inl ⟨rfl, hkind⟩)
  rw [if_neg hkind, hlast]
  dsimp only
  cases hsized : r.lengthFault (h.index.toNat + 1 == h.total.toNat) payload.length with
  | some reason => exact .refused _ hnone (Or.inr (Or.inl hsized))
  | none =>
    have htarget : (r.find? (sender, h.sequence)).getD
        { kind := h.kind, total := h.total, lastSeen := now } =
      r.target (sender, h.sequence) h now := rfl
    dsimp only
    rw [htarget]
    by_cases htotal : (r.target (sender, h.sequence) h now).total = h.total
    swap
    · rw [if_pos htotal]
      exact .refused _ hnone (Or.inr (Or.inr (Or.inl ⟨rfl, htotal⟩)))
    rw [if_neg (not_not.mpr htotal)]
    by_cases hsame : (r.target (sender, h.sequence) h now).kind = h.kind
    swap
    · rw [if_pos hsame]
      exact .refused _ hnone (Or.inr (Or.inr (Or.inr ⟨rfl, hsame⟩)))
    rw [if_neg (not_not.mpr hsame)]
    cases hheld : (r.target (sender, h.sequence) h now).pieces.contains h.index.toNat with
    | true => exact .held hnone (Std.TreeMap.mem_iff_contains.mpr hheld)
    | false =>
      have hacc : r.Acceptable (sender, h.sequence) h payload now :=
        ⟨hnone, hkind, hsized, htotal, hsame,
          fun hc => by simp [Std.TreeMap.mem_iff_contains, hheld] at hc⟩
      simpa using inserts_store hacc

theorem inserts_insert (r : Reassembly) (sender : SocketAddr) {h : Chunk.Header} (hv : h.Valid)
    (payload : Bytes) (now : Instant) :
    Inserts r (sender, h.sequence) h payload now (r.insert sender h payload now).1
      (r.insert sender h payload now).2 :=
  inserts_of_isLast? r sender (Chunk.Header.isLast?_eq hv) payload now

/-- A chunk with any header. -/
theorem inserts_or_outOfRange (r : Reassembly) (sender : SocketAddr) (h : Chunk.Header)
    (payload : Bytes) (now : Instant) :
    Inserts r (sender, h.sequence) h payload now (r.insert sender h payload now).1
        (r.insert sender h payload now).2 ∨
      r.insert sender h payload now = (.outOfRange, r) := by
  rcases h.isLast?_eq_none_or with hlast | hlast
  · unfold insert
    dsimp only
    rw [hlast]
    split
    · exact Or.inl (.known ‹_›)
    · rename_i hdone
      have hnone : r.completed.lookup (sender, h.sequence) = none :=
        Option.not_isSome_iff_eq_none.mp hdone
      split
      · exact Or.inl (.refused _ hnone (Or.inl ⟨rfl, ‹_›⟩))
      · exact Or.inr rfl
  · exact Or.inl (inserts_of_isLast? r sender hlast payload now)

/-! ## The table after it -/

variable {r r' : Reassembly} {key : Key} {h : Chunk.Header} {payload : Bytes} {now : Instant}
  {outcome : Outcome}

theorem find?_keep (k : Key) :
    (r.keep key h payload now).find? k =
      if k = key then some (r.filled key h payload now) else r.find? k := by
  unfold find? keep put
  dsimp only
  by_cases hk : k = key
  · simp [hk]
  · have hne : (k == key) = false := beq_eq_false_iff_ne.mpr hk
    rw [List.lookup_cons, hne, lookup_filter_key r.messages (· ≠ key) k]
    simp [hk]

theorem find?_finish (k : Key) :
    (r.finish key h payload now).find? k = if k = key then none else r.find? k := by
  unfold find? finish
  rw [lookup_filter_key r.messages (· ≠ key) k]
  by_cases hk : k = key <;> simp [hk]

theorem lookup_finish (k : Key) :
    (r.finish key h payload now).completed.lookup k =
      if k = key then some now else r.completed.lookup k := by
  unfold finish
  by_cases hk : k = key
  · simp [hk]
  · have hne : (k == key) = false := beq_eq_false_iff_ne.mpr hk
    simp [List.lookup_cons, hne, hk]

theorem target_eq {p : Partial} (hp : r.find? key = some p) : r.target key h now = p := by
  rw [target, hp, Option.getD_some]

theorem target_eq_unseen (hp : r.find? key = none) : r.target key h now = .unseen h now := by
  rw [target, hp, Option.getD_none]

theorem mem_filled {i : Nat} : i ∈ (r.filled key h payload now).pieces ↔
    h.index.toNat = i ∨ i ∈ (r.target key h now).pieces := by
  show i ∈ (r.target key h now).pieces.insert h.index.toNat payload ↔ _
  rw [Std.TreeMap.mem_insert, Std.compare_eq_iff_eq]

/-- A chunk that is here is in an incomplete message. -/
theorem find?_of_mem_target {i : Nat} (hi : i ∈ (r.target key h now).pieces) :
    ∃ p, r.find? key = some p ∧ i ∈ p.pieces := by
  cases hf : r.find? key with
  | none => simp [target_eq_unseen hf, Partial.unseen] at hi
  | some p => exact ⟨p, rfl, target_eq hf ▸ hi⟩

theorem Inserts.fields (hi : Inserts r key h payload now outcome r') :
    r'.chunkSize = r.chunkSize ∧ r'.maxPartialBytes = r.maxPartialBytes := by
  cases hi <;> exact ⟨rfl, rfl⟩

/-- A chunk concerns no other message. -/
theorem Inserts.other (hi : Inserts r key h payload now outcome r') {k : Key} (hk : k ≠ key) :
    r'.find? k = r.find? k ∧ r'.completed.lookup k = r.completed.lookup k := by
  cases hi with
  | stored => exact ⟨by rw [find?_keep, if_neg hk], rfl⟩
  | completed => exact ⟨by rw [find?_finish, if_neg hk], by rw [lookup_finish, if_neg hk]⟩
  | _ => exact ⟨rfl, rfl⟩

/-- An incomplete message was there before, or the chunk went into it. -/
theorem Inserts.find?_eq_some (hi : Inserts r key h payload now outcome r') {k : Key} {p : Partial}
    (hp : r'.find? k = some p) :
    r.find? k = some p ∨ k = key ∧ p = r.filled key h payload now := by
  by_cases hk : k = key
  · subst hk
    cases hi with
    | stored =>
      rw [find?_keep, if_pos rfl] at hp
      exact Or.inr ⟨rfl, (Option.some.inj hp).symm⟩
    | completed => simp [find?_finish] at hp
    | _ => exact Or.inl hp
  · exact Or.inl ((hi.other hk).1 ▸ hp)

/-- A completed message was completed before, or the chunk completed it. -/
theorem Inserts.lookup_eq_some (hi : Inserts r key h payload now outcome r') {k : Key}
    {t : Instant} (ht : r'.completed.lookup k = some t) :
    r.completed.lookup k = some t ∨ k = key ∧ ∃ data, outcome = .complete data := by
  by_cases hk : k = key
  · subst hk
    cases hi with
    | completed => exact Or.inr ⟨rfl, _, rfl⟩
    | _ => exact Or.inl ht
  · exact Or.inl ((hi.other hk).2 ▸ ht)

/-- A chunk that completes its message fits it and leaves none missing. -/
theorem Inserts.of_complete (hi : Inserts r key h payload now outcome r') {data : Bytes}
    (hc : outcome = .complete data) : r.Acceptable key h payload now ∧
      h.total.toNat ≤ (r.filled key h payload now).pieces.size ∧
      data = (r.filled key h payload now).data r.chunkSize := by
  cases hi with
  | completed acceptable room all =>
    cases hc
    exact ⟨acceptable, all, rfl⟩
  | _ => cases hc

theorem Inserts.of_outOfRange (hi : Inserts r key h payload now outcome r')
    (ho : outcome = .outOfRange) :
    r.Acceptable key h payload now ∧ ¬ r.InRange key h payload now := by
  cases hi with
  | beyond acceptable outside => exact ⟨acceptable, outside⟩
  | _ => cases ho

/-- What is remembered as completed stays so. -/
theorem Inserts.lookup_of_some (hi : Inserts r key h payload now outcome r') {k : Key}
    {t : Instant} (ht : r.completed.lookup k = some t) : r'.completed.lookup k = some t := by
  by_cases hk : k = key
  · subst hk
    cases hi with
    | completed acceptable => exact absurd (acceptable.unfinished.symm.trans ht) (by simp)
    | _ => exact ht
  · rw [(hi.other hk).2, ht]

/-- A message is remembered from the instant at which it is completed. -/
theorem Inserts.lookup_of_complete (hi : Inserts r key h payload now outcome r') {data : Bytes}
    (hc : outcome = .complete data) : r'.completed.lookup key = some now := by
  cases hi with
  | completed => rw [lookup_finish, if_pos rfl]
  | _ => cases hc

/-! ## The invariant -/

/-- The length of all buffers. -/
def total (l : List (Key × Partial)) : Nat := l.foldr (fun x n => x.2.extent + n) 0

@[simp] theorem total_nil : total [] = 0 := rfl

@[simp] theorem total_cons (x : Key × Partial) (l : List (Key × Partial)) :
    total (x :: l) = x.2.extent + total l := rfl

/-- Each message is in the table once, and the buffers are counted. This holds whatever the
headers of the chunks are. -/
structure Tallied (r : Reassembly) : Prop where
  distinct : (r.messages.map (·.1)).Nodup
  distinctCompleted : (r.completed.map (·.1)).Nodup
  buffered_eq : r.buffered = total r.messages

structure Sound (r : Reassembly) : Prop extends Tallied r where
  apart : ∀ k m, r.find? k = some m → r.completed.lookup k = none
  partials : ∀ k m, r.find? k = some m → m.Sound r.chunkSize
  buffered_le : r.buffered ≤ r.maxPartialBytes

theorem tallied_empty (chunkSize maxPartialBytes : Nat) :
    Tallied { chunkSize, maxPartialBytes } where
  distinct := List.nodup_nil
  distinctCompleted := List.nodup_nil
  buffered_eq := rfl

theorem sound_empty (chunkSize maxPartialBytes : Nat) :
    Sound { chunkSize, maxPartialBytes } where
  toTallied := tallied_empty chunkSize maxPartialBytes
  apart := fun _ _ _ => rfl
  partials := fun _ _ hm => by cases hm
  buffered_le := Nat.zero_le _

/-- With distinct keys the lengths are those of one message and of the others. -/
theorem total_filter_ne {l : List (Key × Partial)} (hd : (l.map (·.1)).Nodup) (key : Key) :
    total l = total (l.filter (·.1 ≠ key)) + ((l.lookup key).map (·.extent)).getD 0 := by
  induction l with
  | nil => rfl
  | cons x l ih =>
    obtain ⟨k, m⟩ := x
    obtain ⟨hnot, hd'⟩ := List.nodup_cons.mp hd
    have ih := ih hd'
    by_cases hk : k = key
    · subst hk
      have hself : l.filter (·.1 ≠ k) = l := by
        apply List.filter_eq_self.mpr
        intro x hx
        have : x.1 ≠ k := fun he => hnot (he ▸ List.mem_map.mpr ⟨x, hx, rfl⟩)
        simpa using this
      simp only [ne_eq, decide_not] at hself
      simp [hself, Nat.add_comm]
    · have hne : (key == k) = false := beq_eq_false_iff_ne.mpr (Ne.symm hk)
      simp only [ne_eq, decide_not] at ih
      simp [hk, List.lookup_cons, hne, ih, Nat.add_assoc]

theorem Sound.target_fits (hr : r.Sound) (key : Key) (now : Instant) (hk : h.kind ≠ .ack) :
    (r.target key h now).Fits r.chunkSize := by
  unfold target
  cases hf : r.find? key with
  | none => exact Partial.fits_unseen hk
  | some m => exact (hr.partials key m hf).toFits

theorem lengthFault_eq_none_iff {r : Reassembly} {isLast : Bool} {n : Nat} :
    r.lengthFault isLast n = none ↔
      (isLast = false → n = r.chunkSize) ∧ (isLast = true → 0 < n ∧ n ≤ r.chunkSize) := by
  unfold lengthFault
  cases isLast
  · by_cases hn : n = r.chunkSize <;> simp [hn]
  · by_cases hn : n = 0 ∨ r.chunkSize < n
    · simp only [↓reduceIte, if_pos hn]
      simp
      omega
    · simp only [↓reduceIte, if_neg hn]
      simp
      omega

theorem length_le_of_sized {isLast : Bool} {n : Nat} (hsized : r.lengthFault isLast n = none) :
    n ≤ r.chunkSize := by
  obtain ⟨hfull, hlast⟩ := lengthFault_eq_none_iff.mp hsized
  cases isLast with
  | false => exact Nat.le_of_eq (hfull rfl)
  | true => exact (hlast rfl).2

theorem Sound.filled_fits (hr : r.Sound) (hv : h.Valid)
    (ha : r.Acceptable key h payload now) : (r.filled key h payload now).Fits r.chunkSize := by
  have hs := lengthFault_eq_none_iff.mp ha.sized
  have hi : h.index.toNat < (r.target key h now).total.toNat := by
    rw [ha.sameTotal]
    exact UInt16.lt_iff_toNat_lt.mp hv
  have := (hr.target_fits key now ha.kind).add (b := payload) now
    ha.absent hi ?_ ?_
  · rwa [ha.sameTotal] at this
  · intro hlt
    rw [ha.sameTotal] at hlt
    exact hs.1 (beq_eq_false_iff_ne.mpr (Nat.ne_of_lt hlt))
  · intro heq
    rw [ha.sameTotal] at heq
    exact hs.2 (beq_iff_eq.mpr heq)

/-- The chunks of a message that has them all are the new one and those that were here. -/
theorem Sound.mem_target_of_full (hr : r.Sound) (hv : h.Valid)
    (ha : r.Acceptable key h payload now)
    (all : h.total.toNat ≤ (r.filled key h payload now).pieces.size) {i : Nat}
    (hi : i < h.total.toNat) : h.index.toNat = i ∨ i ∈ (r.target key h now).pieces := by
  have htotal : (r.filled key h payload now).total = h.total := ha.sameTotal
  rw [← htotal] at all hi
  exact mem_filled.mp (Partial.mem_of_full (hr.filled_fits hv ha) all hi)

theorem size_filled (ha : r.Acceptable key h payload now) :
    (r.filled key h payload now).pieces.size = (r.target key h now).pieces.size + 1 :=
  Partial.size_add _ _ _ _ _ ha.absent

theorem Tallied.total_target (hr : r.Tallied) (key : Key) (h : Chunk.Header) (now : Instant) :
    r.buffered = total (r.messages.filter (·.1 ≠ key)) + (r.target key h now).extent := by
  rw [hr.buffered_eq, total_filter_ne hr.distinct key]
  congr 1
  unfold target find?
  cases r.messages.lookup key <;> rfl

theorem extent_filled (r : Reassembly) (key : Key) (h : Chunk.Header) (payload : Bytes)
    (now : Instant) : (r.filled key h payload now).extent =
    (r.target key h now).extent + r.growth key h payload now := rfl

theorem Tallied.keep (hr : r.Tallied) (key : Key) (h : Chunk.Header) (payload : Bytes)
    (now : Instant) : (r.keep key h payload now).Tallied where
  distinct := by
    refine List.nodup_cons.mpr ⟨fun hm => ?_, hr.distinct.sublist (List.filter_sublist.map _)⟩
    obtain ⟨x, hx, hxk⟩ := List.mem_map.mp hm
    simpa [hxk] using (List.mem_filter.mp hx).2
  distinctCompleted := hr.distinctCompleted
  buffered_eq := by
    show r.buffered + _ = total (_ :: _)
    rw [hr.total_target key h now]
    simp only [total_cons, extent_filled]
    omega

theorem Tallied.finish (hr : r.Tallied) (unfinished : r.completed.lookup key = none)
    (h : Chunk.Header) (payload : Bytes) (now : Instant) :
    (r.finish key h payload now).Tallied where
  distinct := hr.distinct.sublist (List.filter_sublist.map _)
  distinctCompleted := by
    refine List.nodup_cons.mpr ⟨fun hm => ?_, hr.distinctCompleted⟩
    obtain ⟨x, hx, hxk⟩ := List.mem_map.mp hm
    have := List.lookup_eq_none_iff.mp unfinished x hx
    simp [hxk] at this
  buffered_eq := by
    have htotal := hr.total_target key h now
    have hext := extent_filled r key h payload now
    show r.buffered + _ - _ = total (r.messages.filter _)
    omega

theorem Tallied.inserts (hr : r.Tallied) (hi : Inserts r key h payload now outcome r') :
    r'.Tallied := by
  cases hi with
  | known | held | refused | crowded | beyond => exact hr
  | stored => exact hr.keep key h payload now
  | completed acceptable => exact hr.finish acceptable.unfinished h payload now

theorem Tallied.insert (hr : r.Tallied) (sender : SocketAddr) (h : Chunk.Header)
    (payload : Bytes) (now : Instant) : (r.insert sender h payload now).2.Tallied := by
  rcases inserts_or_outOfRange r sender h payload now with hi | heq
  · exact hr.inserts hi
  · exact heq ▸ hr

theorem Sound.keep (hr : r.Sound) (hv : h.Valid) (ha : r.Acceptable key h payload now)
    (room : 0 < r.growth key h payload now →
      r.buffered + r.growth key h payload now ≤ r.maxPartialBytes)
    (missing : (r.filled key h payload now).pieces.size < h.total.toNat) :
    (r.keep key h payload now).Sound where
  toTallied := hr.toTallied.keep key h payload now
  apart := fun k m hm => by
    rw [find?_keep] at hm
    by_cases hk : k = key
    · exact hk ▸ ha.unfinished
    · rw [if_neg hk] at hm
      exact hr.apart k m hm
  partials := fun k m hm => by
    rw [find?_keep] at hm
    by_cases hk : k = key
    · rw [if_pos hk] at hm
      cases hm
      have hsize := size_filled ha
      refine ⟨hr.filled_fits hv ha, by omega, ?_⟩
      rw [show (r.filled key h payload now).total = h.total from ha.sameTotal]
      exact missing
    · rw [if_neg hk] at hm
      exact hr.partials k m hm
  buffered_le := by
    show r.buffered + r.growth key h payload now ≤ r.maxPartialBytes
    have := hr.buffered_le
    by_cases hg : 0 < r.growth key h payload now
    · exact room hg
    · omega

theorem Sound.finish (hr : r.Sound) (ha : r.Acceptable key h payload now) :
    (r.finish key h payload now).Sound where
  toTallied := hr.toTallied.finish ha.unfinished h payload now
  apart := fun k m hm => by
    rw [find?_finish] at hm
    by_cases hk : k = key
    · simp [hk] at hm
    · rw [if_neg hk] at hm
      rw [lookup_finish, if_neg hk]
      exact hr.apart k m hm
  partials := fun k m hm => by
    rw [find?_finish] at hm
    by_cases hk : k = key
    · simp [hk] at hm
    · rw [if_neg hk] at hm
      exact hr.partials k m hm
  buffered_le := by
    have := hr.buffered_le
    have htotal := hr.total_target key h now
    have hext := extent_filled r key h payload now
    show r.buffered + r.growth key h payload now - _ ≤ r.maxPartialBytes
    omega

theorem Sound.inserts (hr : r.Sound) (hv : h.Valid)
    (hi : Inserts r key h payload now outcome r') : r'.Sound := by
  cases hi with
  | known | held | refused | crowded | beyond => exact hr
  | stored acceptable room missing => exact hr.keep hv acceptable room missing
  | completed acceptable => exact hr.finish acceptable

/-! ## A purge -/

theorem foldl_sub (l : List (Key × Partial)) (n : Nat) :
    l.foldl (fun n (_, m) => n - m.extent) n = n - total l := by
  induction l generalizing n with
  | nil => rfl
  | cons x l ih =>
    rw [List.foldl_cons, ih]
    simp [Nat.sub_sub]

theorem total_partition (l : List (Key × Partial)) (p : Key × Partial → Bool) :
    total l = total (l.filter p) + total (l.filter fun x => !p x) := by
  induction l with
  | nil => rfl
  | cons x l ih =>
    cases hp : p x <;> simp [hp, ih] <;> omega

/-- A purge keeps what had a chunk lately and what was completed lately. -/
theorem purge_snd (r : Reassembly) (now : Instant) (timeout retention : Duration) :
    (r.purge now timeout retention).2 =
      { r with
        buffered := r.buffered -
          total (r.messages.filter fun x => !decide (now - x.2.lastSeen < timeout.nanos))
        messages := r.messages.filter fun x => decide (now - x.2.lastSeen < timeout.nanos)
        completed := r.completed.filter fun x => decide (now - x.2 < retention.nanos) } := by
  unfold purge
  simp only [List.partition_eq_filter_filter, foldl_sub]
  rfl

theorem Tallied.find?_purge (hr : r.Tallied) (now : Instant) (timeout retention : Duration)
    (k : Key) : (r.purge now timeout retention).2.find? k =
      (r.find? k).filter fun m => decide (now - m.lastSeen < timeout.nanos) := by
  rw [purge_snd]
  exact lookup_filter hr.distinct (fun m => decide (now - m.lastSeen < timeout.nanos)) k

theorem Tallied.lookup_purge (hr : r.Tallied) (now : Instant) (timeout retention : Duration)
    (k : Key) :
    (r.purge now timeout retention).2.completed.lookup k =
      (r.completed.lookup k).filter fun since => decide (now - since < retention.nanos) := by
  rw [purge_snd]
  exact lookup_filter hr.distinctCompleted (fun since => decide (now - since < retention.nanos)) k

theorem Tallied.purge (hr : r.Tallied) (now : Instant) (timeout retention : Duration) :
    (r.purge now timeout retention).2.Tallied := by
  have hsplit := total_partition r.messages fun x => decide (now - x.2.lastSeen < timeout.nanos)
  have heq := hr.buffered_eq
  rw [purge_snd]
  refine ⟨hr.distinct.sublist (List.filter_sublist.map _),
    hr.distinctCompleted.sublist (List.filter_sublist.map _), ?_⟩
  dsimp only
  omega

theorem Sound.purge (hr : r.Sound) (now : Instant) (timeout retention : Duration) :
    (r.purge now timeout retention).2.Sound := by
  have hfind := fun k => hr.find?_purge now timeout retention k
  have hlookup := fun k => hr.lookup_purge now timeout retention k
  refine ⟨hr.toTallied.purge now timeout retention, ?_, ?_, ?_⟩
  · intro k m hm
    rw [hfind, Option.filter_eq_some_iff] at hm
    rw [hlookup, hr.apart k m hm.1]
    rfl
  · intro k m hm
    rw [hfind, Option.filter_eq_some_iff] at hm
    rw [purge_snd]
    exact hr.partials k m hm.1
  · have := hr.buffered_le
    rw [purge_snd]
    dsimp only
    omega

end Courier.Reassembly
