import Courier.Chunk.Split
import Mathlib.Algebra.Order.BigOperators.Group.List
import Mathlib.Algebra.Order.Group.Nat

/-!
The pieces of a message: how many there are, what each of them holds, and how
long it is. Laid one after the other they are the message, and it takes no fewer
pieces of this size to carry it. Main statement: a message of at most as many
chunks as can be counted on the wire has all its chunks.
-/

namespace Courier.Chunk

theorem toList_piecesFrom (cs n : Nat) (rest : Bytes) (known : Array Bytes) :
    (piecesFrom cs n rest known).toList =
      known.toList ++ (List.range n).map fun i => (rest.drop (i * cs)).take cs := by
  induction n generalizing rest known with
  | zero => simp [piecesFrom]
  | succ n ih =>
    rw [piecesFrom, ih, List.range_succ_eq_map]
    simp [Function.comp_def, Nat.succ_mul, Nat.add_comm]

/-- A message that could be cut: the size of its chunks is no zero, and there are as
many pieces as are needed. -/
structure Cut (message : Bytes) (cs : Nat) (pieces : Array Bytes) : Prop where
  pos : 0 < cs
  size : pieces.size = (message.length + (cs - 1)) / cs
  piece : ∀ i, pieces.getD i [] = (message.drop (i * cs)).take cs

theorem Cut.of_split? {message : Bytes} {cs : Nat} {pieces : Array Bytes}
    (h : split? message cs = some pieces) : Cut message cs pieces := by
  unfold split? count? at h
  split at h
  · cases h
  · rename_i hcs
    cases h
    have hl := toList_piecesFrom cs ((message.length + (cs - 1)) / cs) message #[]
    have hsize := congrArg List.length hl
    simp only [Array.length_toList, List.length_append, List.length_map, List.length_range] at hsize
    refine ⟨by omega, by simpa using hsize, fun i => ?_⟩
    rw [Array.getD_eq_getD_getElem?, ← Array.getElem?_toList, hl]
    by_cases hi : i < (message.length + (cs - 1)) / cs
    · simp [hi]
    · -- past the last piece nothing of the message is left
      have hlen : message.length ≤ i * cs := by
        have := Nat.lt_mul_of_div_lt (Nat.lt_succ_of_le (Nat.not_lt.mp hi)) (by omega : 0 < cs)
        rw [Nat.succ_mul] at this
        omega
      simp [hi, List.drop_eq_nil_of_le hlen]

namespace Cut

variable {message : Bytes} {cs : Nat} {pieces : Array Bytes}

theorem lt_size_iff (h : Cut message cs pieces) (i : Nat) :
    i < pieces.size ↔ i * cs < message.length := by
  have hpos := h.pos
  rw [h.size, Nat.lt_div_iff_mul_lt hpos]
  omega

theorem length_piece (h : Cut message cs pieces) (i : Nat) :
    (pieces.getD i []).length = min cs (message.length - i * cs) := by
  rw [h.piece, List.length_take, List.length_drop]

/-- All pieces but the last are full. -/
theorem length_full (h : Cut message cs pieces) {i : Nat} (hi : i + 1 < pieces.size) :
    (pieces.getD i []).length = cs := by
  have := (h.lt_size_iff (i + 1)).mp hi
  rw [h.length_piece]
  rw [Nat.succ_mul] at this
  omega

/-- The last piece holds what is left, which is something. -/
theorem length_last (h : Cut message cs pieces) {i : Nat} (hi : i + 1 = pieces.size) :
    i * cs + (pieces.getD i []).length = message.length ∧
      0 < (pieces.getD i []).length ∧ (pieces.getD i []).length ≤ cs := by
  have hin := (h.lt_size_iff i).mp (by omega)
  have hout : ¬ (i + 1) * cs < message.length := fun hc => by
    have := (h.lt_size_iff (i + 1)).mpr hc
    omega
  rw [h.length_piece]
  rw [Nat.succ_mul] at hout
  omega

theorem end_le (h : Cut message cs pieces) {i : Nat} (hi : i < pieces.size) :
    i * cs + (pieces.getD i []).length ≤ message.length := by
  have := (h.lt_size_iff i).mp hi
  rw [h.length_piece]
  omega

/-- The pieces before `i`, then piece `i`. -/
theorem take_append_piece (h : Cut message cs pieces) (i : Nat) :
    message.take (i * cs) ++ pieces.getD i [] = message.take ((i + 1) * cs) := by
  rw [h.piece, Nat.succ_mul, List.take_add]

theorem flatMap_pieces (h : Cut message cs pieces) (k : Nat) :
    (List.range k).flatMap (pieces.getD · []) = message.take (k * cs) := by
  induction k with
  | zero => simp
  | succ k ih =>
    rw [List.range_succ, List.flatMap_append, ih, List.flatMap_singleton, h.take_append_piece]

/-- The pieces in order are the message. -/
theorem flatMap_all (h : Cut message cs pieces) :
    (List.range pieces.size).flatMap (pieces.getD · []) = message := by
  rw [h.flatMap_pieces]
  apply List.take_of_length_le
  exact Nat.not_lt.mp fun hc => Nat.lt_irrefl _ ((h.lt_size_iff _).mpr hc)

theorem size_pos (h : Cut message cs pieces) (hne : message ≠ []) : 0 < pieces.size := by
  rw [h.lt_size_iff, Nat.zero_mul]
  exact List.length_pos_iff.mpr hne

theorem size_le_of_length_le (h : Cut message cs pieces) {n : Nat}
    (hn : message.length ≤ n * cs) : pieces.size ≤ n :=
  Nat.not_lt.mp fun hmore => Nat.not_lt.mpr hn ((h.lt_size_iff n).mp hmore)

theorem count?_eq (h : Cut message cs pieces) :
    count? message.length cs = some pieces.size := by
  rw [count?, if_neg (Nat.ne_of_gt h.pos), h.size]

/-- Parts of at most this size are no fewer if they make up the message. -/
theorem size_le (h : Cut message cs pieces) {parts : List Bytes}
    (hparts : ∀ p ∈ parts, p.length ≤ cs) (hwhole : parts.flatten = message) :
    pieces.size ≤ parts.length := by
  have hlength : message.length ≤ parts.length * cs := by
    rw [← hwhole, List.length_flatten]
    simpa using List.sum_le_card_nsmul (parts.map List.length) cs (by simpa using hparts)
  exact h.size_le_of_length_le hlength

/-- A second chunk needs a message longer than the first, and no message is longer than half of
the machine's range. So no chunk ends beyond that range. -/
theorem payload?_eq (h : Cut message cs pieces) (hword : cs ≤ wordMax)
    (hsize : message.length ≤ sizeMax) {i : Nat} (hi : i < pieces.size) :
    payload? message cs i = some (pieces.getD i []) := by
  have hstart := (h.lt_size_iff i).mp hi
  have hend : i * cs + cs ≤ wordMax := by
    cases i with
    | zero => simpa using hword
    | succ i =>
      have hfirst : cs ≤ (i + 1) * cs := Nat.le_mul_of_pos_left cs (Nat.succ_pos i)
      have hhalf : sizeMax + sizeMax ≤ wordMax := by decide
      omega
  rw [payload?, h.piece]
  exact if_pos ⟨hend, Nat.le_of_lt hstart⟩

end Cut

theorem exists_split? {cs : Nat} (hcs : 1 ≤ cs) (message : Bytes) :
    ∃ pieces, split? message cs = some pieces := by
  rw [split?, count?, if_neg (Nat.ne_of_gt hcs)]
  exact ⟨_, rfl⟩

/-- What becomes of a message on the wire: `n` chunks with these payloads. -/
structure Covers (message : Bytes) (cs n : Nat) (payload : Nat → Bytes) : Prop where
  count : count? message.length cs = some n
  pos : 1 ≤ n
  limit : n ≤ 65535
  /-- the count, and with it every index, is written on the wire as it is -/
  narrow : ∃ total, narrow? n = some total ∧ total.toNat = n
  /-- the size of a chunk is a machine word, and a message is an object in memory -/
  inRange : cs ≤ wordMax → message.length ≤ sizeMax →
    ∀ i < n, payload? message cs i = some (payload i)
  full : ∀ i, i + 1 < n → (payload i).length = cs
  last : 1 ≤ (payload (n - 1)).length ∧ (payload (n - 1)).length ≤ cs
  whole : (List.range n).flatMap payload = message
  least : ∀ parts : List Bytes, (∀ p ∈ parts, p.length ≤ cs) → parts.flatten = message →
    n ≤ parts.length
  /-- a message that is cut in one go is cut into the same payloads -/
  split : ∃ pieces, split? message cs = some pieces ∧ pieces.size = n ∧
    ∀ i < n, pieces.getD i [] = payload i

theorem covers_pieces {message : Bytes} {cs : Nat} {pieces : Array Bytes}
    (hsplit : split? message cs = some pieces) (hne : message ≠ [])
    (hlimit : message.length ≤ 65535 * cs) :
    Covers message cs pieces.size (pieces.getD · []) := by
  have hcut := Cut.of_split? hsplit
  have hpos := hcut.size_pos hne
  have hcount : pieces.size ≤ 65535 := hcut.size_le_of_length_le hlimit
  exact {
    count := hcut.count?_eq
    pos := hpos
    limit := hcount
    narrow := ⟨_, if_pos hcount, UInt16.toNat_ofNat_of_lt' (Nat.lt_succ_of_le hcount)⟩
    inRange := fun hword hsize _ => hcut.payload?_eq hword hsize
    full := fun _ => hcut.length_full
    last := (hcut.length_last (Nat.sub_add_cancel hpos)).2
    whole := hcut.flatMap_all
    least := fun _ => hcut.size_le
    split := ⟨pieces, hsplit, rfl, fun _ _ => rfl⟩ }

/-- Every message that is not too long is carried by its chunks. -/
theorem covers_message {message : Bytes} {cs : Nat} (hcs : 1 ≤ cs) (hne : message ≠ [])
    (hlimit : message.length ≤ 65535 * cs) : ∃ n payload, Covers message cs n payload := by
  obtain ⟨pieces, hsplit⟩ := exists_split? hcs message
  exact ⟨_, _, covers_pieces hsplit hne hlimit⟩

/-- The longest message for chunks of two bytes needs all chunks that can be counted. -/
theorem covers_longest : ∃ payload, Covers (List.replicate 131070 7) 2 65535 payload := by
  have hlength : (List.replicate 131070 (7 : UInt8)).length = 131070 := List.length_replicate
  have hne : List.replicate 131070 (7 : UInt8) ≠ [] :=
    List.ne_nil_of_length_pos (by rw [hlength]; decide)
  have hlimit : (List.replicate 131070 (7 : UInt8)).length ≤ 65535 * 2 :=
    hlength.trans_le (by decide)
  obtain ⟨n, payload, h⟩ := covers_message (by decide) hne hlimit
  have hcount := h.count
  rw [hlength] at hcount
  obtain rfl : 65535 = n := Option.some.inj hcount
  exact ⟨payload, h⟩

end Courier.Chunk
