import Courier.Proofs.Frame.Decode

/-!
What a stream of bytes means, read in one pass, and the decoder that is fed the stream in
pieces. Main statement: for every way to cut the stream, the frames are those of the one pass,
and the piece in which decoding fails is the one that holds the byte at which the one pass
fails. The decoder stops at one place more than the limit asks for: at a frame larger than
any object.
-/

namespace Courier.Frame

/-- The piece that holds a byte of a stream, by the number of pieces before it. -/
def pieceOf : List Bytes → Nat → Nat
  | [], _ => 0
  | piece :: rest, place =>
    if place < piece.length then 0 else pieceOf rest (place - piece.length) + 1

/-- What the reading of a stream came to: the frames, and the place of the first failure. -/
structure Reading where
  frames : List Bytes
  failure : Option (Nat × DecodeError)
  deriving DecidableEq

namespace Reading

/-- What is read after `n` places and the frames in them. -/
def after (frames : List Bytes) (n : Nat) (r : Reading) : Reading :=
  ⟨frames ++ r.frames, r.failure.map fun (place, e) => (place + n, e)⟩

theorem after_after (frames frames' : List Bytes) (n n' : Nat) (r : Reading) :
    (r.after frames n).after frames' n' = r.after (frames' ++ frames) (n + n') := by
  cases hr : r.failure <;> simp [after, hr, Nat.add_assoc]

@[simp] theorem after_nothing (r : Reading) : r.after [] 0 = r := by
  cases hr : r.failure <;> simp [after]

theorem after_failed (frames : List Bytes) (n place : Nat) (e : DecodeError) :
    Reading.after frames n ⟨[], some (place, e)⟩ = ⟨frames, some (place + n, e)⟩ := by
  simp [after]

/-- The same with places that count pieces in the stead of bytes. -/
def inPieces (pieces : List Bytes) (r : Reading) : Reading :=
  ⟨r.frames, r.failure.map fun (place, e) => (pieceOf pieces place, e)⟩

end Reading

/-- Feeds a stream in pieces, up to the first one that cannot be decoded. The place of a
failure is the number of pieces before it. -/
def feed (limit : Nat) : State → List Bytes → Reading
  | _, [] => ⟨[], none⟩
  | s, piece :: rest =>
    let decoded := decode limit s piece
    match decoded.error with
    | none => (feed limit decoded.state rest).after decoded.frames 1
    | some e => ⟨decoded.frames, some (0, e)⟩

/-! ## The one pass -/

/-- The place of the first digit at which a size exceeds the limit. -/
def firstOver (limit : Nat) : (value : Nat) → (digits : Bytes) → Option Nat
  | _, [] => none
  | value, d :: digits =>
    if limit < digitsValue value [d] then some 0
    else (firstOver limit (digitsValue value [d]) digits).map (· + 1)

/-- Reads a whole stream. The place of a failure is the number of bytes before it. A size
that is within the limit but above `room` ends the reading as well; there is none if `room`
is the limit itself. -/
def grammar (limit room : Nat) : (stream : Bytes) → Reading
  | [] => ⟨[], none⟩
  | b :: stream =>
    if b = marker then
      let digits := stream.takeWhile isDigit
      match firstOver limit 0 digits with
      | some place => ⟨[], some (1 + place, .tooLarge limit)⟩
      | none =>
        match h : stream.dropWhile isDigit with
        | [] => ⟨[], none⟩
        | c :: body =>
          let size := digitsValue 0 digits
          if c = marker then (grammar limit room (c :: body)).after [] (1 + digits.length)
          else if c ≠ terminator ∨ size = 0 then
            (grammar limit room body).after [] (1 + digits.length + 1)
          else if room < size then ⟨[], some (1 + digits.length, .outOfRange)⟩
          else if body.length < size then ⟨[], none⟩
          else (grammar limit room (body.drop size)).after [body.take size]
            (1 + digits.length + 1 + size)
    else (grammar limit room stream).after [] 1
termination_by stream => stream.length
decreasing_by
  all_goals
    first
    | simp only [List.length_cons]
      omega
    | have := (List.dropWhile_suffix isDigit (l := stream)).length_le
      simp only [h, List.length_cons, List.length_drop] at this ⊢
      omega

/-! ## The decoder, byte for byte -/

/-- The decoder on a whole stream, with the place at which it fails. -/
def read (limit : Nat) : State → Bytes → Reading
  | _, [] => ⟨[], none⟩
  | s, b :: rest =>
    match step limit s b with
    | .more s => (read limit s rest).after [] 1
    | .frame payload => (read limit .seek rest).after [payload] 1
    | .fail e => ⟨[], some (0, e)⟩

section

variable {limit value n : Nat} {s s' : State} {b : UInt8} {u v : Bytes} {e : DecodeError}

theorem read_more (h : step limit s b = .more s') (rest : Bytes) :
    read limit s (b :: rest) = (read limit s' rest).after [] 1 := by
  rw [read, h]

theorem read_fail (h : step limit s b = .fail e) (rest : Bytes) :
    read limit s (b :: rest) = ⟨[], some (0, e)⟩ := by
  rw [read, h]

theorem read_append (h : (decode limit s u).error = none) (v : Bytes) :
    read limit s (u ++ v) =
      (read limit (decode limit s u).state v).after (decode limit s u).frames u.length := by
  induction u generalizing s with
  | nil => simp
  | cons b u ih =>
    cases hstep : step limit s b with
    | more s' =>
      rw [decode_more hstep] at h ⊢
      rw [List.cons_append, read_more hstep, ih h, Reading.after_after]
      rfl
    | frame payload =>
      rw [decode_frame hstep] at h ⊢
      rw [List.cons_append, read, hstep]
      simp only []
      rw [ih h, Reading.after_after]
      rfl
    | fail e =>
      rw [decode_fail hstep] at h
      cases h

/-- A stream without a failure to its end. -/
theorem read_eq_of_error (h : (decode limit s u).error = none) :
    read limit s u = ⟨(decode limit s u).frames, none⟩ := by
  have := read_append h []
  rw [List.append_nil] at this
  rw [this]
  simp [read, Reading.after]

/-- A failure in the first part of a stream. -/
theorem read_append_of_error (h : (decode limit s u).error = some e) (v : Bytes) :
    ∃ place < u.length,
      read limit s (u ++ v) = ⟨(decode limit s u).frames, some (place, e)⟩ := by
  induction u generalizing s with
  | nil => cases h
  | cons b u ih =>
    rw [List.length_cons]
    cases hstep : step limit s b with
    | more s' =>
      rw [decode_more hstep] at h ⊢
      obtain ⟨place, hplace, hread⟩ := ih h
      refine ⟨place + 1, by omega, ?_⟩
      rw [List.cons_append, read_more hstep, hread]
      rfl
    | frame payload =>
      rw [decode_frame hstep] at h ⊢
      obtain ⟨place, hplace, hread⟩ := ih h
      refine ⟨place + 1, by omega, ?_⟩
      rw [List.cons_append, read, hstep]
      simp only []
      rw [hread]
      rfl
    | fail e' =>
      rw [decode_fail hstep] at h ⊢
      cases h
      exact ⟨0, by omega, by rw [List.cons_append, read_fail hstep]⟩

theorem inPieces_after (piece : Bytes) (pieces : List Bytes) (frames : List Bytes) (r : Reading) :
    (r.after frames piece.length).inPieces (piece :: pieces) =
      (r.inPieces pieces).after frames 1 := by
  cases hr : r.failure <;> simp [Reading.inPieces, Reading.after, pieceOf, hr]

/-- The cuts make no difference. -/
theorem feed_eq_read (s : State) (pieces : List Bytes) :
    feed limit s pieces = (read limit s pieces.flatten).inPieces pieces := by
  induction pieces generalizing s with
  | nil => rfl
  | cons piece rest ih =>
    rw [List.flatten_cons, feed]
    cases hd : (decode limit s piece).error with
    | none =>
      simp only []
      rw [read_append hd, inPieces_after, ih]
    | some e =>
      simp only []
      obtain ⟨place, hplace, hread⟩ := read_append_of_error hd rest.flatten
      rw [hread]
      simp [Reading.inPieces, pieceOf, hplace]

/-! ## The decoder and the one pass -/

theorem firstOver_none (h : firstOver limit value u = none) (hvalue : value ≤ limit) :
    digitsValue value u ≤ limit := by
  induction u generalizing value with
  | nil => exact hvalue
  | cons d u ih =>
    rw [firstOver] at h
    split at h
    · cases h
    next hover => exact ih (Option.map_eq_none_iff.mp h) (Nat.le_of_not_lt hover)

theorem firstOver_some {place : Nat} (h : firstOver limit value u = some place)
    (hvalue : value ≤ limit) :
    ∃ w d rest, u = w ++ d :: rest ∧ w.length = place ∧ digitsValue value w ≤ limit ∧
      limit < digitsValue (digitsValue value w) [d] := by
  induction u generalizing value place with
  | nil => cases h
  | cons d u ih =>
    rw [firstOver] at h
    split at h
    next hover =>
      cases h
      exact ⟨[], d, u, rfl, rfl, hvalue, hover⟩
    next hover =>
      obtain ⟨place, hplace, rfl⟩ := Option.map_eq_some_iff.mp h
      obtain ⟨w, d', rest, rfl, rfl, hle, hlt⟩ := ih hplace (Nat.le_of_not_lt hover)
      exact ⟨d :: w, d', rest, rfl, rfl, hle, hlt⟩

theorem isDigit_of_mem_takeWhile (u : Bytes) : ∀ b ∈ u.takeWhile isDigit, isDigit b = true :=
  List.all_eq_true.mp List.all_takeWhile

theorem not_isDigit_of_dropWhile (h : u.dropWhile isDigit = b :: v) : isDigit b = false := by
  have := List.head_dropWhile_not (p := isDigit) (l := u) (by rw [h]; exact List.cons_ne_nil b v)
  simpa only [h, List.head_cons] using this

/-- The digits of a size up to the one that exceeds the limit. -/
theorem read_over {place : Nat} (hover : firstOver limit 0 (u.takeWhile isDigit) = some place)
    (hword : limit ≤ wordMax) :
    read limit .seek (marker :: u) = ⟨[], some (1 + place, .tooLarge limit)⟩ := by
  obtain ⟨w, d, rest, hdigits, rfl, hle, hlt⟩ := firstOver_some hover (Nat.zero_le limit)
  have hu := isDigit_of_mem_takeWhile u
  rw [hdigits, List.forall_mem_append, List.forall_mem_cons] at hu
  obtain ⟨hw, hd, -⟩ := hu
  have hdecode := decode_digits hw hle (Nat.le_trans hle hword)
  rw [← List.takeWhile_append_dropWhile (p := isDigit) (l := u), hdigits,
    read_more step_seek_marker, List.append_assoc, read_append (by rw [hdecode]), hdecode,
    List.cons_append, read_fail (step_digit_over hd hlt), Reading.after_after]
  simp [Reading.after, Nat.add_comm]

/-- From a marker to the first byte that is not a digit. -/
theorem read_size (hover : firstOver limit 0 (u.takeWhile isDigit) = none)
    (hrest : u.dropWhile isDigit = v) (hword : limit ≤ wordMax) :
    read limit .seek (marker :: u) =
      (read limit (.size (digitsValue 0 (u.takeWhile isDigit))) v).after []
        (1 + (u.takeWhile isDigit).length) := by
  have hle := firstOver_none hover (Nat.zero_le limit)
  have hdecode := decode_digits (isDigit_of_mem_takeWhile u) hle (Nat.le_trans hle hword)
  conv_lhs => rw [← List.takeWhile_append_dropWhile (p := isDigit) (l := u), hrest]
  rw [read_more step_seek_marker, read_append (by rw [hdecode]), hdecode, Reading.after_after,
    Nat.add_comm 1]
  rfl

/-- A marker among digits begins a frame as a marker anywhere else. -/
theorem read_size_marker (n : Nat) (v : Bytes) :
    read limit (.size n) (marker :: v) = read limit .seek (marker :: v) := by
  rw [read_more step_size_marker, read_more step_seek_marker]

theorem read_size_dropped (hdigit : isDigit b = false) (hmarker : b ≠ marker)
    (hdrop : b ≠ terminator ∨ n = 0) (v : Bytes) :
    read limit (.size n) (b :: v) = (read limit .seek v).after [] 1 := by
  refine read_more ?_ v
  by_cases hb : b = terminator
  · rw [hb, step_terminator, if_pos (hdrop.resolve_left (not_not_intro hb))]
  · exact step_size_other hdigit hb hmarker

theorem read_payload_part (hv : v.length < n) : read limit (.payload [] n) v = ⟨[], none⟩ := by
  have hdecode : decode limit (.payload [] n) v = _ := decode_payload_part hv
  rw [read_eq_of_error (by rw [hdecode]), hdecode]

theorem read_payload (hn : 0 < n) (hv : n ≤ v.length) :
    read limit (.payload [] n) v = (read limit .seek (v.drop n)).after [v.take n] n := by
  have hlength : (v.take n).length = n := List.length_take_of_le hv
  have hdecode : decode limit (.payload [] n) (v.take n) = _ := decode_payload hlength hn
  conv_lhs => rw [← List.take_append_drop n v]
  rw [read_append (by rw [hdecode]), hdecode, hlength]
  rfl

/-- The decoder on a whole stream reads what the one pass reads. -/
theorem read_eq_grammar (hword : limit ≤ wordMax) (stream : Bytes) :
    read limit .seek stream = grammar limit sizeMax stream := by
  fun_induction grammar limit sizeMax stream with
  | case1 => rfl
  | case2 stream digits place hover => exact read_over hover hword
  | case3 stream digits hover hrest =>
    rw [read_size hover hrest hword]
    rfl
  | case4 stream digits hover body hrest ih =>
    rw [read_size hover hrest hword, read_size_marker, ih]
  | case5 stream digits hover c body hrest size hmarker hdrop ih =>
    rw [read_size hover hrest hword,
      read_size_dropped (not_isDigit_of_dropWhile hrest) hmarker hdrop, ih, Reading.after_after,
      Nat.add_comm 1 (1 + _)]
    rfl
  | case6 stream digits hover c body hrest size hmarker hdrop hroom =>
    obtain ⟨hc, hsize⟩ : c = terminator ∧ size ≠ 0 := by simpa using hdrop
    have hstep : step limit (.size size) terminator = _ := step_terminator
    rw [if_neg hsize, if_pos hroom] at hstep
    rw [read_size hover hrest hword, hc, read_fail hstep, Reading.after_failed, Nat.zero_add]
  | case7 stream digits hover c body hrest size hmarker hdrop hroom hbody =>
    obtain ⟨hc, hsize⟩ : c = terminator ∧ size ≠ 0 := by simpa using hdrop
    rw [read_size hover hrest hword, hc,
      read_more (step_terminator_room hsize (Nat.le_of_not_lt hroom)), read_payload_part hbody]
    rfl
  | case8 stream digits hover c body hrest size hmarker hdrop hroom hbody ih =>
    obtain ⟨hc, hsize⟩ : c = terminator ∧ size ≠ 0 := by simpa using hdrop
    rw [read_size hover hrest hword, hc,
      read_more (step_terminator_room hsize (Nat.le_of_not_lt hroom)),
      read_payload (Nat.pos_of_ne_zero hsize) (Nat.le_of_not_lt hbody), ih,
      Reading.after_after, Reading.after_after, Nat.add_comm size, Nat.add_comm 1 (1 + _)]
    rfl
  | case9 b stream hb ih => rw [read_more (step_seek_other hb), ih]

/-- Every frame is of a size that was announced and within the limit. -/
theorem grammar_frames (limit room : Nat) (stream : Bytes) :
    ∀ f ∈ (grammar limit room stream).frames, f ≠ [] ∧ f.length ≤ limit := by
  fun_induction grammar limit room stream with
  | case1 => simp
  | case2 => simp
  | case3 => simp
  | case4 stream digits hover body hrest ih => exact ih
  | case5 stream digits hover c body hrest size hmarker hdrop ih => exact ih
  | case6 => simp
  | case7 => simp
  | case8 stream digits hover c body hrest size hmarker hdrop hroom hbody ih =>
    have hlength : (body.take size).length = size := List.length_take_of_le (Nat.le_of_not_lt hbody)
    have hsize : size ≠ 0 := fun h => hdrop (.inr h)
    refine List.forall_mem_cons.mpr ⟨⟨?_, ?_⟩, ih⟩
    · exact List.ne_nil_of_length_pos (by omega)
    · rw [hlength]
      exact firstOver_none hover (Nat.zero_le limit)
  | case9 b stream hb ih => exact ih

theorem grammar_over {room place : Nat}
    (hover : firstOver limit 0 (u.takeWhile isDigit) = some place) :
    grammar limit room (marker :: u) = ⟨[], some (1 + place, .tooLarge limit)⟩ := by
  rw [grammar, if_pos rfl]
  dsimp only
  rw [hover]

theorem grammar_sized {room : Nat} (hover : firstOver limit 0 (u.takeWhile isDigit) = none) :
    grammar limit room (marker :: u) =
      let digits := u.takeWhile isDigit
      let size := digitsValue 0 digits
      match u.dropWhile isDigit with
      | [] => ⟨[], none⟩
      | c :: body =>
        if c = marker then (grammar limit room (c :: body)).after [] (1 + digits.length)
        else if c ≠ terminator ∨ size = 0 then
          (grammar limit room body).after [] (1 + digits.length + 1)
        else if room < size then ⟨[], some (1 + digits.length, .outOfRange)⟩
        else if body.length < size then ⟨[], none⟩
        else (grammar limit room (body.drop size)).after [body.take size]
          (1 + digits.length + 1 + size) := by
  rw [grammar, if_pos rfl]
  dsimp only
  rw [hover]
  dsimp only
  split <;> rename_i hrest <;> rw [hrest]

/-- All room beyond the limit is the same. -/
theorem grammar_room {room : Nat} (h : limit ≤ room) (stream : Bytes) :
    grammar limit room stream = grammar limit limit stream := by
  fun_induction grammar limit room stream with
  | case1 => rw [grammar]
  | case2 stream digits place hover => rw [grammar_over hover]
  | case3 stream digits hover hrest => rw [grammar_sized hover, hrest]
  | case4 stream digits hover body hrest ih =>
    rw [grammar_sized hover, hrest, ih]
    exact (if_pos rfl).symm
  | case5 stream digits hover c body hrest size hmarker hdrop ih =>
    rw [grammar_sized hover, hrest, ih]
    dsimp only
    rw [if_neg hmarker, if_pos hdrop]
  | case6 stream digits hover c body hrest size hmarker hdrop hroom =>
    exact absurd (firstOver_none hover (Nat.zero_le limit)) (by omega)
  | case7 stream digits hover c body hrest size hmarker hdrop hroom hbody =>
    have hlimit := firstOver_none hover (Nat.zero_le limit)
    rw [grammar_sized hover, hrest]
    dsimp only
    rw [if_neg hmarker, if_neg hdrop, if_neg (Nat.not_lt.mpr hlimit), if_pos hbody]
  | case8 stream digits hover c body hrest size hmarker hdrop hroom hbody ih =>
    have hlimit := firstOver_none hover (Nat.zero_le limit)
    rw [grammar_sized hover, hrest, ih]
    dsimp only
    rw [if_neg hmarker, if_neg hdrop, if_neg (Nat.not_lt.mpr hlimit), if_neg hbody]
  | case9 b stream hb ih => rw [grammar, if_neg hb, ih]

end

/-- Whatever the cuts, the pieces give the frames of the one pass, and the piece in which
decoding fails holds the byte at which the one pass fails. No frame is empty or beyond the
limit. Up to the largest size of an object, the limit alone decides what is a failure. -/
theorem feed_eq_grammar {limit : Nat} (hword : limit ≤ wordMax) (pieces : List Bytes) :
    feed limit .seek pieces = (grammar limit sizeMax pieces.flatten).inPieces pieces ∧
      (∀ f ∈ (feed limit .seek pieces).frames, f ≠ [] ∧ f.length ≤ limit) ∧
      (limit ≤ sizeMax →
        grammar limit sizeMax pieces.flatten = grammar limit limit pieces.flatten) := by
  have heq : feed limit .seek pieces = (grammar limit sizeMax pieces.flatten).inPieces pieces := by
    rw [feed_eq_read, read_eq_grammar hword]
  refine ⟨heq, ?_, fun hroom => grammar_room hroom _⟩
  rw [heq]
  exact grammar_frames limit sizeMax pieces.flatten

/-- One frame in two pieces, and a size above the limit in the third. -/
theorem feed_cutFrames :
    let pieces : List Bytes := [[marker, 0x31], [terminator, 0x61, marker], [0x33]]
    feed 2 .seek pieces = ⟨[[0x61]], some (2, .tooLarge 2)⟩ ∧
      feed 2 .seek pieces = (grammar 2 sizeMax pieces.flatten).inPieces pieces ∧
      (∀ f ∈ (feed 2 .seek pieces).frames, f ≠ [] ∧ f.length ≤ 2) ∧
      grammar 2 sizeMax pieces.flatten = grammar 2 2 pieces.flatten := by
  intro pieces
  obtain ⟨heq, hframes, hroom⟩ := feed_eq_grammar (show 2 ≤ wordMax by decide) pieces
  exact ⟨by decide, heq, hframes, hroom (by decide)⟩

/-- The largest limit lets sizes pass that the decoder has no room for. -/
theorem feed_hugeFrame :
    let stream := encode [0x61, 0x62] ++ marker :: sizeText (sizeMax + 1) ++ [terminator]
    feed wordMax .seek [stream] = ⟨[[0x61, 0x62]], some (0, .outOfRange)⟩ ∧
      (grammar wordMax wordMax stream).inPieces [stream] = ⟨[[0x61, 0x62]], none⟩ := by
  refine ⟨by decide, ?_⟩
  cbv

end Courier.Frame
