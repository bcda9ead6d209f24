import Courier.Proofs.Reassembly.Table
import Mathlib.Algebra.GroupWithZero.Nat
import Mathlib.Algebra.Order.BigOperators.Group.List
import Mathlib.Algebra.Order.Group.Nat

/-!
The table over any sequence of arriving chunks and purges, from any senders and at any
times. Main statement: its accounts always balance. It counts exactly the bytes of the
buffers that it holds, a message is incomplete or completed but not both, and of an
incomplete message something is here and something is missing.
-/

namespace Courier.Reassembly

inductive Event where
  | arrive (sender : SocketAddr) (header : Chunk.Header) (valid : header.Valid) (payload : Bytes)
      (now : Instant)
  | purge (now : Instant) (timeout retention : Duration)

def step (r : Reassembly) : Event → Reassembly
  | .arrive sender header _ payload now => (r.insert sender header payload now).2
  | .purge now timeout retention => (r.purge now timeout retention).2

def run (chunkSize maxPartialBytes : Nat) (events : List Event) : Reassembly :=
  events.foldl step { chunkSize, maxPartialBytes }

/-! ## What is in the table -/

/-- What holds of a message that waits for more of its chunks. -/
structure Partial.Underway (cs : Nat) (m : Partial) : Prop where
  index_lt : ∀ i ∈ m.pieces, i < m.total.toNat
  here : ∃ i, i ∈ m.pieces
  missing : ∃ i < m.total.toNat, i ∉ m.pieces
  /-- the buffer ends where the highest chunk ends -/
  ends : ∃ i b, m.pieces[i]? = some b ∧ (∀ j ∈ m.pieces, j ≤ i) ∧
    (m.buffer cs).length = i * cs + b.length
  /-- the length is known with the final chunk -/
  length?_iff : m.length?.isSome ↔ m.total.toNat - 1 ∈ m.pieces

theorem Partial.Sound.underway {cs : Nat} {m : Partial} (h : m.Sound cs) : m.Underway cs where
  index_lt := h.index_lt
  here := by
    obtain ⟨i, b, hb, _⟩ := h.toFits.exists_highest h.nonempty
    exact ⟨i, Std.TreeMap.mem_iff_isSome_getElem?.mpr (by simp [hb])⟩
  missing := by
    by_contra hall
    push Not at hall
    exact absurd (le_size hall) (Nat.not_le.mpr h.size_lt)
  ends := by
    rw [h.laid.length_buffer]
    exact h.toFits.exists_highest h.nonempty
  length?_iff := by
    rw [h.length?_eq, Option.isSome_map, Std.TreeMap.mem_iff_isSome_getElem?]

/-- The bytes in the buffers of some messages. -/
def bytes (cs : Nat) (l : List (Key × Partial)) : Nat := (l.map fun x => (x.2.buffer cs).length).sum

/-- The accounts of the table. -/
structure Balanced (limit : Nat) (r : Reassembly) : Prop where
  distinct : (r.messages.map (·.1)).Nodup
  buffered_eq : r.buffered = bytes r.chunkSize r.messages
  buffered_le : r.buffered ≤ limit
  /-- whatever messages are taken out, there is enough to take off -/
  covers : ∀ l, l.Sublist r.messages → bytes r.chunkSize l ≤ r.buffered
  apart : ∀ key, r.find? key = none ∨ r.isCompleted key = false
  underway : ∀ key m, r.find? key = some m → m.Underway r.chunkSize

theorem Sound.total_eq {r : Reassembly} (hr : r.Sound) : total r.messages =
    bytes r.chunkSize r.messages := by
  have hsize : ∀ x ∈ r.messages, x.2.extent = (x.2.buffer r.chunkSize).length := fun x hx =>
    (hr.partials x.1 x.2 ((lookup_eq_some_iff hr.distinct).mpr hx)).laid.length_buffer.symm
  unfold bytes
  rw [← List.map_congr_left hsize]
  induction r.messages with
  | nil => rfl
  | cons x l ih => rw [total_cons, List.map_cons, List.sum_cons, ih]

theorem Sound.balanced {r : Reassembly} (hr : r.Sound) : r.Balanced r.maxPartialBytes where
  distinct := hr.distinct
  buffered_eq := hr.buffered_eq.trans hr.total_eq
  buffered_le := hr.buffered_le
  covers := fun l hl => by
    rw [hr.buffered_eq, hr.total_eq]
    exact (hl.map _).sum_le_sum fun _ _ => Nat.zero_le _
  apart := fun key => by
    cases hm : r.find? key with
    | none => exact Or.inl rfl
    | some m => exact Or.inr (by rw [isCompleted, hr.apart key m hm, Option.isSome_none])
  underway := fun key m hm => (hr.partials key m hm).underway

/-! ## Every run -/

theorem Sound.step {r : Reassembly} (hr : r.Sound) (e : Event) : (r.step e).Sound := by
  cases e with
  | arrive sender header valid payload now =>
    exact hr.inserts valid (inserts_insert r sender valid payload now)
  | purge now timeout retention => exact hr.purge now timeout retention

theorem step_fields (r : Reassembly) (e : Event) :
    (r.step e).chunkSize = r.chunkSize ∧ (r.step e).maxPartialBytes = r.maxPartialBytes := by
  cases e with
  | arrive sender header valid payload now =>
    exact (inserts_insert r sender valid payload now).fields
  | purge now timeout retention => exact ⟨rfl, rfl⟩

theorem Sound.foldl {r : Reassembly} (hr : r.Sound) (events : List Event) :
    (events.foldl Reassembly.step r).Sound ∧
      (events.foldl Reassembly.step r).chunkSize = r.chunkSize ∧
      (events.foldl Reassembly.step r).maxPartialBytes = r.maxPartialBytes := by
  induction events generalizing r with
  | nil => exact ⟨hr, rfl, rfl⟩
  | cons e events ih =>
    obtain ⟨hsize, hlimit⟩ := step_fields r e
    obtain ⟨hs, h1, h2⟩ := ih (hr.step e)
    exact ⟨hs, h1.trans hsize, h2.trans hlimit⟩

/-- The accounts of the table balance after every run, whatever arrives. -/
theorem balanced_run (chunkSize limit : Nat) (events : List Event) :
    (run chunkSize limit events).chunkSize = chunkSize ∧
      (run chunkSize limit events).Balanced limit := by
  obtain ⟨hr, hsize, hlimit⟩ := (sound_empty chunkSize limit).foldl events
  refine ⟨hsize, ?_⟩
  have hb := hr.balanced
  rw [hlimit] at hb
  exact hb

end Courier.Reassembly
