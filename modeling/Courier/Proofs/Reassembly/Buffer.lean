import Courier.Proofs.Lists
import Courier.Proofs.Reassembly.Partial

/-!
The buffer of an incomplete message, byte by byte. Main statement: one more chunk is written
over the zeros at its place, and the buffer grows up to its end if it was shorter.
-/

namespace Courier.Reassembly

/-! ## Writing over a part of a buffer -/

/-- The bytes from `start` up to `stop` are replaced, if that many are given and the buffer has
them. -/
def overwrite? (data : Bytes) (start stop : Nat) (payload : Bytes) : Option Bytes :=
  if start ≤ stop ∧ stop ≤ data.length ∧ payload.length = stop - start then
    some (data.take start ++ payload ++ data.drop stop)
  else none

/-- A buffer made longer with zeros, unless it is long enough. -/
def stretch (data : Bytes) (stop : Nat) : Bytes := data ++ List.replicate (stop - data.length) 0

theorem length_stretch (data : Bytes) (stop : Nat) :
    (stretch data stop).length = max data.length stop := by
  unfold stretch
  rw [List.length_append, List.length_replicate]
  omega

theorem stretch_eq_self {data : Bytes} {stop : Nat} (h : stop ≤ data.length) :
    stretch data stop = data := by
  unfold stretch
  rw [Nat.sub_eq_zero_of_le h, List.replicate_zero, List.append_nil]

theorem overwrite?_stretch (data : Bytes) (start : Nat) (payload : Bytes) :
    overwrite? (stretch data (start + payload.length)) start (start + payload.length) payload =
      some ((stretch data (start + payload.length)).take start ++ payload ++
        (stretch data (start + payload.length)).drop (start + payload.length)) := by
  unfold overwrite?
  rw [length_stretch]
  exact if_pos ⟨Nat.le_add_right _ _, Nat.le_max_right _ _, by omega⟩

/-- What is where after a part was replaced. -/
theorem getElem?_replaced (data : Bytes) {start : Nat} (payload : Bytes)
    (hstop : start + payload.length ≤ data.length) (k : Nat) :
    (data.take start ++ payload ++ data.drop (start + payload.length))[k]? =
      if start ≤ k ∧ k < start + payload.length then payload[k - start]? else data[k]? := by
  have htake : (data.take start).length = start := by
    rw [List.length_take]
    omega
  rcases Nat.lt_or_ge k start with hk | hk
  · rw [if_neg (by omega), List.append_assoc, List.getElem?_append_left (by omega),
      List.getElem?_take_of_lt hk]
  rcases Nat.lt_or_ge k (start + payload.length) with hin | hout
  · rw [if_pos ⟨hk, hin⟩, List.append_assoc, List.getElem?_append_right (by omega), htake,
      List.getElem?_append_left (by omega)]
  · have hlen : (data.take start ++ payload).length = start + payload.length := by
      rw [List.length_append, htake]
    rw [if_neg (by omega), List.getElem?_append_right (by omega), hlen, List.getElem?_drop]
    congr 1
    omega

namespace Partial

/-! ## Pieces byte by byte -/

/-- A byte of the chunk at an index, and where in the chunk it is. -/
theorem div_mod_of_place {cs i k : Nat} (hfrom : i * cs ≤ k) (hto : k < i * cs + cs) :
    k / cs = i ∧ k % cs = k - i * cs := by
  have hquot : k / cs = i :=
    Nat.div_eq_of_lt_le hfrom (by rw [Nat.succ_mul]; exact hto)
  have hdiv := Nat.div_add_mod' k cs
  rw [hquot] at hdiv
  omega

/-- The byte at a place of pieces of `cs` bytes, or zero. -/
def byteOf (cs : Nat) (l : List (Nat × Bytes)) (k : Nat) : UInt8 :=
  ((l.lookup (k / cs)).bind (·[k % cs]?)).getD 0

/-- Beyond the ends of all pieces there are zeros. -/
theorem byteOf_eq_zero {cs : Nat} {l : List (Nat × Bytes)} {k : Nat}
    (h : ∀ b, l.lookup (k / cs) = some b → k / cs * cs + b.length ≤ k) : byteOf cs l k = 0 := by
  unfold byteOf
  cases hb : l.lookup (k / cs) with
  | none => rfl
  | some b =>
    have hend := h b hb
    have hdiv := Nat.div_add_mod' k cs
    rw [Option.bind_some, List.getElem?_eq_none (by omega)]
    rfl

theorem mem_of_lookup {l : List (Nat × Bytes)} {i : Nat} {b : Bytes} (h : l.lookup i = some b) :
    (i, b) ∈ l := by
  induction l with
  | nil => cases h
  | cons x l ih =>
    obtain ⟨j, c⟩ := x
    rw [List.lookup_cons] at h
    by_cases hij : i = j
    · subst hij
      rw [beq_self_eq_true] at h
      cases h
      exact List.mem_cons_self
    · rw [beq_eq_false_iff_ne.mpr hij] at h
      exact List.mem_cons_of_mem _ (ih h)

/-- Pieces in descending order, with zeros between them, and then the bytes after them. -/
theorem getElem?_layout (cs : Nat) {l : List (Nat × Bytes)} {stop : Nat}
    (hlength : ∀ x ∈ l, x.2.length ≤ cs)
    (hapart : l.Pairwise fun x y => y.1 * cs + y.2.length ≤ x.1 * cs)
    (hstop : ∀ x ∈ l, x.1 * cs + x.2.length ≤ stop) (after : Bytes) (k : Nat) :
    (layout cs l stop after)[k]? = if k < stop then some (byteOf cs l k) else after[k - stop]? := by
  induction l generalizing stop after with
  | nil =>
    unfold layout byteOf
    by_cases hk : k < stop
    · rw [if_pos hk, List.getElem?_append_left (by simpa using hk)]
      simp [hk]
    · rw [if_neg hk, List.getElem?_append_right (by simpa using hk), List.length_replicate]
  | cons x l ih =>
    obtain ⟨i, p⟩ := x
    have hbelow : ∀ x ∈ l, x.1 * cs + x.2.length ≤ i * cs := fun _ =>
      List.rel_of_pairwise_cons hapart
    have hend : i * cs + p.length ≤ stop := hstop (i, p) List.mem_cons_self
    have hp : p.length ≤ cs := hlength (i, p) List.mem_cons_self
    have hdiv := Nat.div_add_mod' k cs
    rw [layout, ih (fun x hx => hlength x (List.mem_cons_of_mem _ hx)) hapart.of_cons hbelow]
    rcases Nat.lt_or_ge k (i * cs) with hbefore | hfrom
    · -- before the piece
      have hne : k / cs ≠ i := by
        rintro rfl
        omega
      rw [if_pos hbefore, if_pos (by omega), byteOf, byteOf, List.lookup_cons,
        beq_eq_false_iff_ne.mpr hne]
    rw [if_neg (Nat.not_lt.mpr hfrom)]
    rcases Nat.lt_or_ge k (i * cs + p.length) with hin | hafter
    · -- in the piece
      obtain ⟨hquot, hrem⟩ := div_mod_of_place hfrom (Nat.lt_of_lt_of_le hin (by omega))
      have hget : p[k - i * cs]? = some p[k - i * cs] := List.getElem?_eq_getElem (by omega)
      rw [if_pos (by omega), List.getElem?_append_left (by omega), byteOf, hquot, hrem,
        List.lookup_cons_self, Option.bind_some, hget, Option.getD_some]
    · -- after it
      rw [List.getElem?_append_right (by omega)]
      by_cases hk : k < stop
      · have hzero : byteOf cs ((i, p) :: l) k = 0 := by
          refine byteOf_eq_zero fun b hb => ?_
          rcases List.mem_cons.mp (mem_of_lookup hb) with heq | hmem
          · cases heq
            exact hafter
          · exact Nat.le_trans (hbelow _ hmem) hfrom
        rw [if_pos hk, hzero, List.getElem?_append_left (by rw [List.length_replicate]; omega),
          List.getElem?_replicate, if_pos (by omega)]
      · rw [if_neg hk, List.getElem?_append_right (by rw [List.length_replicate]; omega),
          List.length_replicate]
        congr 1
        omega

/-! ## The buffer -/

theorem lookup_toList_reverse (m : Partial) (i : Nat) :
    m.pieces.toList.reverse.lookup i = m.pieces[i]? := by
  have hnodup : (m.pieces.toList.reverse.map (·.1)).Nodup := by
    rw [List.map_reverse, List.nodup_reverse, Std.TreeMap.map_fst_toList_eq_keys]
    exact nodup_keys m.pieces
  ext b
  rw [lookup_eq_some_iff hnodup, List.mem_reverse, Std.TreeMap.mem_toList_iff_getElem?_eq_some]

/-- The byte at a place of the buffer, or zero. -/
def byteAt (cs : Nat) (m : Partial) (k : Nat) : UInt8 :=
  ((m.pieces[k / cs]?).bind (·[k % cs]?)).getD 0

variable {cs : Nat} {m : Partial}

theorem Laid.getElem?_buffer (h : m.Laid cs) (k : Nat) :
    (m.buffer cs)[k]? = if k < m.extent then some (m.byteAt cs k) else none := by
  obtain ⟨hapart, hstop⟩ := h.apart
  have hlength : ∀ x ∈ m.pieces.toList.reverse, x.2.length ≤ cs := fun x hx =>
    h.length_le x.1 x.2 (Std.TreeMap.mem_toList_iff_getElem?_eq_some.mp (List.mem_reverse.mp hx))
  rw [buffer, getElem?_layout cs hlength hapart hstop, byteOf, lookup_toList_reverse]
  rfl

theorem Laid.byteAt_eq_zero (h : m.Laid cs) {k : Nat} (hk : m.extent ≤ k) : m.byteAt cs k = 0 := by
  have hzero : byteOf cs m.pieces.toList.reverse k = 0 :=
    byteOf_eq_zero fun b hb => Nat.le_trans (h.end_le _ b (lookup_toList_reverse m _ ▸ hb)) hk
  rw [byteOf, lookup_toList_reverse] at hzero
  exact hzero

theorem Laid.getElem?_stretch (h : m.Laid cs) (stop k : Nat) :
    (stretch (m.buffer cs) stop)[k]? =
      if k < max m.extent stop then some (m.byteAt cs k) else none := by
  have hlength := h.length_buffer
  unfold stretch
  by_cases hk : k < m.extent
  · rw [List.getElem?_append_left (by omega), h.getElem?_buffer, if_pos hk, if_pos (by omega)]
  · rw [List.getElem?_append_right (by omega), List.getElem?_replicate, hlength,
      h.byteAt_eq_zero (Nat.not_lt.mp hk)]
    by_cases hstop : k < stop
    · rw [if_pos (by omega), if_pos (by omega)]
    · rw [if_neg (by omega), if_neg (by omega)]

theorem extent_add (m : Partial) (cs i : Nat) (isLast : Bool) (b : Bytes) (now : Instant) :
    (m.add cs i isLast b now).extent = max m.extent (i * cs + b.length) := by
  show m.extent + _ = _
  omega

theorem Laid.add (h : m.Laid cs) {i : Nat} {b : Bytes} (hb : b.length ≤ cs) (isLast : Bool)
    (now : Instant) : (m.add cs i isLast b now).Laid cs where
  length_le j c hj := by
    rw [getElem?_add] at hj
    split at hj
    · cases hj
      exact hb
    · exact h.length_le j c hj
  end_le j c hj := by
    rw [extent_add]
    rw [getElem?_add] at hj
    split at hj
    · rename_i hij
      cases hj
      exact hij ▸ Nat.le_max_right _ _
    · exact Nat.le_trans (h.end_le j c hj) (Nat.le_max_left _ _)

/-- One more chunk is written over its place. -/
theorem Laid.buffer_add (h : m.Laid cs) {i : Nat} {b : Bytes} (hb : b.length ≤ cs)
    (hnew : i ∉ m.pieces) (isLast : Bool) (now : Instant) :
    overwrite? (stretch (m.buffer cs) (i * cs + b.length)) (i * cs) (i * cs + b.length) b =
      some ((m.add cs i isLast b now).buffer cs) := by
  have hlength : i * cs + b.length ≤ (stretch (m.buffer cs) (i * cs + b.length)).length := by
    rw [length_stretch]
    exact Nat.le_max_right _ _
  rw [overwrite?_stretch]
  congr 1
  apply List.ext_getElem?
  intro k
  rw [getElem?_replaced _ _ hlength, h.getElem?_stretch, (h.add hb isLast now).getElem?_buffer,
    extent_add]
  have hdiv := Nat.div_add_mod' k cs
  have hbyte : (m.add cs i isLast b now).byteAt cs k =
      if i = k / cs then (b[k % cs]?).getD 0 else m.byteAt cs k := by
    unfold byteAt
    rw [getElem?_add]
    split <;> rfl
  rw [hbyte]
  by_cases hin : i * cs ≤ k ∧ k < i * cs + b.length
  · obtain ⟨hquot, hrem⟩ := div_mod_of_place hin.1 (Nat.lt_of_lt_of_le hin.2 (by omega))
    rw [if_pos hin, if_pos (by omega), if_pos hquot.symm, hrem,
      List.getElem?_eq_getElem (by omega), Option.getD_some]
  rw [if_neg hin]
  by_cases hquot : i = k / cs
  · -- in the place of the chunk, but after its end
    have hnone : m.byteAt cs k = 0 := by
      have hget : m.pieces[k / cs]? = none := by
        rw [← hquot]
        exact Std.TreeMap.getElem?_eq_none hnew
      rw [byteAt, hget]
      rfl
    have hbeyond : b.length ≤ k % cs := by
      subst hquot
      omega
    rw [if_pos hquot, List.getElem?_eq_none hbeyond, hnone]
    rfl
  · rw [if_neg hquot]

end Partial

end Courier.Reassembly
