import Courier.Proofs.Chunk.Split
import Courier.Reassembly
import Mathlib.Data.List.Nodup
import Mathlib.Data.List.Perm.Subperm

/-!
One incomplete message: the invariant `Sound` of its bookkeeping, and what its buffer
holds once no chunk is missing.
-/

namespace Courier.Reassembly.Partial

/-! ## Pieces laid out in order -/

/-- Full pieces leave no gap. -/
theorem layout_full (cs : Nat) (f : Nat → Bytes) (k : Nat) (hf : ∀ i < k, (f i).length = cs)
    (after : Bytes) :
    layout cs ((List.range k).map fun i => (i, f i)).reverse (k * cs) after =
      (List.range k).flatMap f ++ after := by
  induction k generalizing after with
  | zero => simp [layout]
  | succ k ih =>
    have hk : (f k).length = cs := hf k (Nat.lt_succ_self k)
    have hgap : (k + 1) * cs - (k * cs + (f k).length) = 0 := by
      rw [hk, Nat.succ_mul]
      omega
    rw [List.range_succ, List.map_append, List.reverse_append, List.flatMap_append]
    simp only [List.map_cons, List.map_nil, List.reverse_cons, List.reverse_nil, List.nil_append,
      List.cons_append, layout, hgap, List.replicate_zero]
    rw [ih (fun i hi => hf i (Nat.lt_succ_of_lt hi))]
    simp

theorem length_flatMap_full {cs : Nat} {f : Nat → Bytes} {k : Nat}
    (hf : ∀ i < k, (f i).length = cs) : ((List.range k).flatMap f).length = k * cs := by
  rw [List.length_flatMap, List.map_congr_left fun i hi => hf i (List.mem_range.mp hi)]
  simp

/-- Pieces in descending order that do not overlap fill the room before `stop`, with zeros
between them. -/
theorem length_layout (cs : Nat) {l : List (Nat × Bytes)} {stop : Nat}
    (hapart : l.Pairwise fun x y => y.1 * cs + y.2.length ≤ x.1 * cs)
    (hstop : ∀ x ∈ l, x.1 * cs + x.2.length ≤ stop) (after : Bytes) :
    (layout cs l stop after).length = stop + after.length := by
  induction l generalizing stop after with
  | nil => simp [layout]
  | cons x l ih =>
    obtain ⟨i, p⟩ := x
    obtain ⟨hbelow, hapart'⟩ := List.pairwise_cons.mp hapart
    have hend : i * cs + p.length ≤ stop := hstop (i, p) List.mem_cons_self
    rw [layout, ih hapart' hbelow]
    simp only [List.length_append, List.length_replicate]
    omega

/-- All indices below `n`, each once and in order. -/
theorem eq_range {l : List Nat} {n : Nat} (hs : l.Pairwise (· < ·)) (hlt : ∀ i ∈ l, i < n)
    (hn : n ≤ l.length) : l = List.range n := by
  have hd : l.Nodup := hs.imp fun h => Nat.ne_of_lt h
  have hsub : l ⊆ List.range n := fun i hi => List.mem_range.mpr (hlt i hi)
  have hp : l.Perm (List.range n) :=
    (List.subperm_of_subset hd hsub).perm_of_length_le (by simpa using hn)
  exact hp.eq_of_pairwise (fun a b _ _ hab hba => absurd hab (Nat.not_lt.mpr (Nat.le_of_lt hba)))
    hs List.pairwise_lt_range

/-- The piece at an index, or nothing. -/
def piece (m : Partial) (i : Nat) : Bytes := m.pieces.getD i []

theorem toList_of_full {m : Partial} {n : Nat} (hlt : ∀ i ∈ m.pieces, i < n)
    (hn : n ≤ m.pieces.size) : m.pieces.toList = (List.range n).map fun i => (i, m.piece i) := by
  have hkeys : m.pieces.keys = List.range n := by
    refine eq_range ?_ (fun i hi => hlt i (Std.TreeMap.mem_keys.mp hi)) ?_
    · exact Std.TreeMap.ordered_keys.imp fun h => Nat.compare_eq_lt.mp h
    · rw [Std.TreeMap.length_keys]
      exact hn
  have hpair : ∀ p ∈ m.pieces.toList, (p.1, m.piece p.1) = p := by
    intro p hp
    have hget := Std.TreeMap.mem_toList_iff_getElem?_eq_some.mp hp
    rw [piece, Std.TreeMap.getD_eq_getD_getElem?, hget, Option.getD_some]
  rw [← hkeys, ← Std.TreeMap.map_fst_toList_eq_keys, List.map_map]
  exact ((List.map_congr_left hpair).trans (List.map_id _)).symm

/-! ## The invariant -/

/-- What holds of a message for chunks of `cs` bytes, with whatever chunks of it. -/
structure Fits (cs : Nat) (m : Partial) : Prop where
  kind : m.kind ≠ .ack
  index_lt : ∀ i ∈ m.pieces, i < m.total.toNat
  length_full : ∀ i b, m.pieces[i]? = some b → i + 1 < m.total.toNat → b.length = cs
  length_last : ∀ i b, m.pieces[i]? = some b → i + 1 = m.total.toNat →
    0 < b.length ∧ b.length ≤ cs
  end_le : ∀ i b, m.pieces[i]? = some b → i * cs + b.length ≤ m.extent
  /-- the buffer ends at the end of the highest chunk -/
  extent_le : ∀ e, (∀ i b, m.pieces[i]? = some b → i * cs + b.length ≤ e) → m.extent ≤ e
  length?_eq : m.length? =
    m.pieces[m.total.toNat - 1]?.map fun b => (m.total.toNat - 1) * cs + b.length

/-- What holds of every incomplete message: some of its chunks are here, and some are
not. -/
structure Sound (cs : Nat) (m : Partial) : Prop extends Fits cs m where
  nonempty : 0 < m.pieces.size
  size_lt : m.pieces.size < m.total.toNat

/-- Chunks at their places, none longer than the place. This holds whatever their headers are. -/
structure Laid (cs : Nat) (m : Partial) : Prop where
  length_le : ∀ (i : Nat) (b : Bytes), m.pieces[i]? = some b → b.length ≤ cs
  end_le : ∀ (i : Nat) (b : Bytes), m.pieces[i]? = some b → i * cs + b.length ≤ m.extent

namespace Laid

variable {cs : Nat} {m : Partial}

/-- A piece ends before the pieces after it start. -/
theorem end_le_start (h : m.Laid cs) {i j : Nat} {b : Bytes} (hb : m.pieces[i]? = some b)
    (hij : i < j) : i * cs + b.length ≤ j * cs := by
  calc i * cs + b.length ≤ (i + 1) * cs := by
        rw [Nat.succ_mul]
        exact Nat.add_le_add_left (h.length_le i b hb) _
    _ ≤ j * cs := Nat.mul_le_mul_right cs hij

/-- In the order in which they are laid out, pieces do not overlap and end in the buffer. -/
theorem apart (h : m.Laid cs) :
    (m.pieces.toList.reverse.Pairwise fun x y => y.1 * cs + y.2.length ≤ x.1 * cs) ∧
      ∀ x ∈ m.pieces.toList.reverse, x.1 * cs + x.2.length ≤ m.extent := by
  have hget : ∀ x ∈ m.pieces.toList, m.pieces[x.1]? = some x.2 := fun _ hx =>
    Std.TreeMap.mem_toList_iff_getElem?_eq_some.mp hx
  constructor
  · rw [List.pairwise_reverse]
    refine List.Pairwise.imp_of_mem ?_ Std.TreeMap.ordered_keys_toList
    exact fun hx _ hlt => h.end_le_start (hget _ hx) (Nat.compare_eq_lt.mp hlt)
  · exact fun x hx => h.end_le x.1 x.2 (hget x (List.mem_reverse.mp hx))

/-- The buffer is as long as the accounts say. -/
theorem length_buffer (h : m.Laid cs) : (m.buffer cs).length = m.extent := by
  obtain ⟨hapart, hstop⟩ := h.apart
  rw [buffer, length_layout cs hapart hstop, List.length_nil, Nat.add_zero]

end Laid

namespace Fits

variable {cs : Nat} {m : Partial}

theorem laid (h : m.Fits cs) : m.Laid cs where
  length_le i b hb := by
    have hi := h.index_lt i (Std.TreeMap.mem_iff_isSome_getElem?.mpr (by simp [hb]))
    rcases Nat.lt_or_ge (i + 1) m.total.toNat with hlt | hge
    · exact Nat.le_of_eq (h.length_full i b hb hlt)
    · exact (h.length_last i b hb (by omega)).2
  end_le := h.end_le

/-- The buffer of a message with a chunk ends at the end of its highest chunk. -/
theorem exists_highest (h : m.Fits cs) (hne : 0 < m.pieces.size) :
    ∃ i b, m.pieces[i]? = some b ∧ (∀ j ∈ m.pieces, j ≤ i) ∧ m.extent = i * cs + b.length := by
  have hsome : m.pieces.maxKey?.isSome = true := by
    rw [Std.TreeMap.isSome_maxKey?_iff_isEmpty_eq_false, Std.TreeMap.isEmpty_eq_size_eq_zero]
    exact beq_eq_false_iff_ne.mpr (Nat.pos_iff_ne_zero.mp hne)
  obtain ⟨i, hi⟩ := Option.isSome_iff_exists.mp hsome
  obtain ⟨hmem, hall⟩ := Std.TreeMap.maxKey?_eq_some_iff_mem_and_forall.mp hi
  obtain ⟨b, hb⟩ := Option.isSome_iff_exists.mp (Std.TreeMap.mem_iff_isSome_getElem?.mp hmem)
  have hmax : ∀ j ∈ m.pieces, j ≤ i := fun j hj => Nat.isLE_compare.mp (hall j hj)
  refine ⟨i, b, hb, hmax, Nat.le_antisymm (h.extent_le _ fun j c hc => ?_) (h.end_le i b hb)⟩
  have hj := hmax j (Std.TreeMap.mem_iff_isSome_getElem?.mpr (by simp [hc]))
  rcases Nat.lt_or_eq_of_le hj with hlt | rfl
  · exact Nat.le_trans (h.laid.end_le_start hc hlt) (Nat.le_add_right _ _)
  · cases hb.symm.trans hc
    exact Nat.le_refl _

end Fits

/-- A message none of whose chunks are here. -/
def unseen (h : Chunk.Header) (now : Instant) : Partial :=
  { kind := h.kind, total := h.total, lastSeen := now }

theorem fits_unseen {cs : Nat} {h : Chunk.Header} {now : Instant} (hk : h.kind ≠ .ack) :
    Fits cs (unseen h now) where
  kind := hk
  index_lt := by simp [unseen]
  length_full := by simp [unseen]
  length_last := by simp [unseen]
  end_le := by simp [unseen]
  extent_le := by simp [unseen]
  length?_eq := by simp [unseen]

/-- The message with one more chunk. -/
def add (m : Partial) (cs index : Nat) (isLast : Bool) (payload : Bytes) (now : Instant) :
    Partial :=
  let stop := index * cs + payload.length
  { m with
    pieces := m.pieces.insert index payload
    extent := m.extent + (stop - m.extent)
    length? := if isLast then some stop else m.length?
    lastSeen := now }

theorem getElem?_add (m : Partial) (cs i : Nat) (isLast : Bool) (b : Bytes) (now : Instant)
    (j : Nat) : (m.add cs i isLast b now).pieces[j]? = if i = j then some b else m.pieces[j]? := by
  show (m.pieces.insert i b)[j]? = _
  rw [Std.TreeMap.getElem?_insert]
  by_cases hj : i = j <;> simp [hj]

theorem size_add (m : Partial) (cs : Nat) {i : Nat} (isLast : Bool) (b : Bytes) (now : Instant)
    (hi : i ∉ m.pieces) : (m.add cs i isLast b now).pieces.size = m.pieces.size + 1 := by
  show (m.pieces.insert i b).size = _
  rw [Std.TreeMap.size_insert, if_neg (show ¬ m.pieces.contains i = true from hi)]

theorem Fits.add {cs : Nat} {m : Partial} (h : m.Fits cs) {i : Nat} {b : Bytes} (now : Instant)
    (hnew : i ∉ m.pieces) (hi : i < m.total.toNat) (hfull : i + 1 < m.total.toNat → b.length = cs)
    (hlast : i + 1 = m.total.toNat → 0 < b.length ∧ b.length ≤ cs) :
    (m.add cs i (i + 1 == m.total.toNat) b now).Fits cs := by
  have hget := m.getElem?_add cs i (i + 1 == m.total.toNat) b now
  -- each piece is the new one or was here before
  have hcases : ∀ {P : Nat → Bytes → Prop}, P i b → (∀ j c, m.pieces[j]? = some c → P j c) →
      ∀ j c, (m.add cs i (i + 1 == m.total.toNat) b now).pieces[j]? = some c → P j c := by
    intro P hadded hold j c hj
    rw [hget] at hj
    by_cases hij : i = j
    · rw [if_pos hij] at hj
      cases hj
      exact hij ▸ hadded
    · rw [if_neg hij] at hj
      exact hold j c hj
  have hext : (m.add cs i (i + 1 == m.total.toNat) b now).extent =
      max m.extent (i * cs + b.length) := by
    show m.extent + _ = _
    omega
  refine ⟨h.kind, ?_, hcases hfull h.length_full, hcases hlast h.length_last, ?_, ?_, ?_⟩
  · intro j hj
    rw [← Std.TreeMap.isSome_getElem?_iff_mem, Option.isSome_iff_exists] at hj
    obtain ⟨c, hc⟩ := hj
    exact hcases (P := fun j _ => j < m.total.toNat) hi
      (fun j c hj => h.index_lt j (Std.TreeMap.mem_iff_isSome_getElem?.mpr (by simp [hj]))) j c hc
  · rw [hext]
    exact hcases (Nat.le_max_right _ _)
      fun j c hj => Nat.le_trans (h.end_le j c hj) (Nat.le_max_left _ _)
  · intro e he
    rw [hext]
    refine Nat.max_le.mpr ⟨h.extent_le e fun j c hj => he j c ?_, he i b (by rw [hget, if_pos rfl])⟩
    have hij : i ≠ j := by
      rintro rfl
      exact hnew (Std.TreeMap.mem_iff_isSome_getElem?.mpr (by simp [hj]))
    rw [hget, if_neg hij, hj]
  · have ht : (m.add cs i (i + 1 == m.total.toNat) b now).total = m.total := rfl
    rw [ht, hget]
    by_cases hl : i + 1 = m.total.toNat
    · have hi' : i = m.total.toNat - 1 := by omega
      simp [Partial.add, hl, ← hi']
    · have hi' : i ≠ m.total.toNat - 1 := by omega
      rw [if_neg hi', ← h.length?_eq]
      simp [Partial.add, hl]

theorem getElem?_of_full {cs : Nat} {m : Partial} (h : m.Fits cs)
    (hn : m.total.toNat ≤ m.pieces.size) {i : Nat} (hi : i < m.total.toNat) :
    m.pieces[i]? = some (m.piece i) := by
  apply Std.TreeMap.mem_toList_iff_getElem?_eq_some.mp
  rw [toList_of_full h.index_lt hn]
  exact List.mem_map.mpr ⟨i, List.mem_range.mpr hi, rfl⟩

theorem mem_of_full {cs : Nat} {m : Partial} (h : m.Fits cs) (hn : m.total.toNat ≤ m.pieces.size)
    {i : Nat} (hi : i < m.total.toNat) : i ∈ m.pieces := by
  rw [Std.TreeMap.mem_iff_isSome_getElem?, getElem?_of_full h hn hi, Option.isSome_some]

/-- A message with each of its chunks has them all. -/
theorem le_size {m : Partial} {n : Nat} (h : ∀ i < n, i ∈ m.pieces) : n ≤ m.pieces.size := by
  have hsub : List.range n ⊆ m.pieces.keys :=
    fun i hi => Std.TreeMap.mem_keys.mpr (h i (List.mem_range.mp hi))
  have := (List.subperm_of_subset List.nodup_range hsub).length_le
  rwa [List.length_range, Std.TreeMap.length_keys] at this

/-- The bytes of a message that has all its chunks are theirs in order. -/
theorem data_of_full {cs : Nat} {m : Partial} (h : m.Fits cs) (ht : 0 < m.total.toNat)
    (hn : m.total.toNat ≤ m.pieces.size) :
    m.data cs = (List.range m.total.toNat).flatMap m.piece := by
  have hlist := toList_of_full h.index_lt hn
  have hget := fun i hi => getElem?_of_full h hn (i := i) hi
  obtain ⟨k, hk⟩ : ∃ k, m.total.toNat = k + 1 := ⟨m.total.toNat - 1, by omega⟩
  have hfull : ∀ i < k, (m.piece i).length = cs := fun i hi =>
    h.length_full i _ (hget i (by omega)) (by omega)
  -- the final chunk is the highest one
  have hext : m.extent = k * cs + (m.piece k).length := by
    apply Nat.le_antisymm
    · apply h.extent_le
      intro i b hi
      have hlt := h.index_lt i (Std.TreeMap.mem_iff_isSome_getElem?.mpr (by simp [hi]))
      rw [hget i hlt] at hi
      cases hi
      rcases Nat.lt_or_ge i k with hik | hik
      · rw [hfull i hik, ← Nat.succ_mul]
        exact Nat.le_trans (Nat.mul_le_mul_right cs hik) (Nat.le_add_right _ _)
      · exact Nat.le_of_eq (by rw [show i = k by omega])
    · exact h.end_le k _ (hget k (by omega))
  have hlen : m.length? = some m.extent := by
    rw [h.length?_eq, hext, hk, Nat.add_sub_cancel, hget k (by omega), Option.map_some]
  have hrest := layout_full cs m.piece k hfull (m.piece k)
  have hbuf : m.buffer cs = (List.range m.total.toNat).flatMap m.piece := by
    rw [buffer, hlist, hk, List.range_succ, List.map_append, List.reverse_append]
    simp only [List.map_cons, List.map_nil, List.reverse_cons, List.reverse_nil, List.nil_append,
      List.cons_append, layout, hext, Nat.sub_self, List.replicate_zero, List.append_nil]
    rw [hrest, List.flatMap_append, List.flatMap_singleton]
  have hsum : ((List.range m.total.toNat).flatMap m.piece).length = m.extent := by
    rw [hk, List.range_succ, List.flatMap_append, List.flatMap_singleton, List.length_append,
      length_flatMap_full hfull, hext]
  rw [data, hlen, hbuf]
  exact List.take_of_length_le (Nat.le_of_eq hsum)

end Courier.Reassembly.Partial
