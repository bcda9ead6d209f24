import Courier.Frame
import Mathlib.Data.List.Basic

/-!
The decoder of frames, run over parts of a stream: what becomes of a stream that is cut in
two, and what the decoder makes of the parts of a frame. Main statement: an encoded frame is
decoded as it was, and no part of it that ends early is a frame.
-/

namespace Courier.Frame

section

variable {limit value n : Nat} {s s' : State} {b : UInt8} {u v : Bytes} {payload collected : Bytes}
  {e : DecodeError}

/-- Decoding that comes after frames completed before. -/
def Decoded.after (frames : List Bytes) (d : Decoded) : Decoded :=
  { d with frames := frames ++ d.frames }

theorem decodeFrom_eq (s : State) (piece : Bytes) (frames : List Bytes) :
    decodeFrom limit s piece frames = (decode limit s piece).after frames.reverse := by
  induction piece generalizing s frames with
  | nil => simp [decode, decodeFrom, Decoded.after]
  | cons b rest ih =>
    unfold decode decodeFrom
    cases step limit s b with
    | more s' => exact ih s' frames
    | frame payload =>
      simp only []
      rw [ih .seek (payload :: frames), ih .seek [payload]]
      simp [Decoded.after]
    | fail e => simp [Decoded.after]

@[simp] theorem decode_nil (s : State) : decode limit s [] = ⟨s, [], none⟩ := rfl

theorem decode_more (h : step limit s b = .more s') (rest : Bytes) :
    decode limit s (b :: rest) = decode limit s' rest := by
  rw [decode, decodeFrom, h]
  rfl

theorem decode_frame (h : step limit s b = .frame payload) (rest : Bytes) :
    decode limit s (b :: rest) = (decode limit .seek rest).after [payload] := by
  rw [decode, decodeFrom, h]
  exact decodeFrom_eq .seek rest [payload]

theorem decode_fail (h : step limit s b = .fail e) (rest : Bytes) :
    decode limit s (b :: rest) = ⟨.seek, [], some e⟩ := by
  rw [decode, decodeFrom, h]
  rfl

theorem decode_append (h : (decode limit s u).error = none) (v : Bytes) :
    decode limit s (u ++ v) =
      (decode limit (decode limit s u).state v).after (decode limit s u).frames := by
  induction u generalizing s with
  | nil => rfl
  | cons b u ih =>
    cases hstep : step limit s b with
    | more s' =>
      rw [decode_more hstep] at h
      rw [List.cons_append, decode_more hstep, decode_more hstep, ih h]
    | frame payload =>
      rw [decode_frame hstep] at h
      rw [List.cons_append, decode_frame hstep, decode_frame hstep, ih h]
      simp [Decoded.after]
    | fail e =>
      rw [decode_fail hstep] at h
      cases h

/-- A failure ends the piece in which it is. -/
theorem decode_append_of_error (h : (decode limit s u).error = some e) (v : Bytes) :
    decode limit s (u ++ v) = decode limit s u := by
  induction u generalizing s with
  | nil => cases h
  | cons b u ih =>
    cases hstep : step limit s b with
    | more s' =>
      rw [decode_more hstep] at h
      rw [List.cons_append, decode_more hstep, decode_more hstep, ih h]
    | frame payload =>
      rw [decode_frame hstep] at h
      rw [List.cons_append, decode_frame hstep, decode_frame hstep, ih h]
    | fail e => rw [List.cons_append, decode_fail hstep, decode_fail hstep]

theorem error_of_append (h : (decode limit s (u ++ v)).error = none) :
    (decode limit s u).error = none := by
  cases hd : (decode limit s u).error with
  | none => rfl
  | some e =>
    rw [decode_append_of_error hd, hd] at h
    cases h

/-! ## The digits of a size -/

def isDigit (b : UInt8) : Bool := decide (48 ≤ b.toNat ∧ b.toNat ≤ 57)

/-- The number that digits come to after a number read before them. -/
def digitsValue (value : Nat) (digits : Bytes) : Nat :=
  digits.foldl (fun n d => n * 10 + (d.toNat - 48)) value

theorem le_digitsValue (value : Nat) (digits : Bytes) : value ≤ digitsValue value digits := by
  induction digits generalizing value with
  | nil => exact Nat.le_refl value
  | cons d digits ih =>
    have := ih (value * 10 + (d.toNat - 48))
    rw [digitsValue, List.foldl_cons]
    rw [digitsValue] at this
    omega

theorem step_digit (hb : isDigit b = true) (hlimit : value * 10 + (b.toNat - 48) ≤ limit)
    (hword : value * 10 + (b.toNat - 48) ≤ wordMax) :
    step limit (.size value) b = .more (.size (value * 10 + (b.toNat - 48))) := by
  rw [isDigit, decide_eq_true_eq] at hb
  rw [step, stepSize, if_pos hb]
  exact if_neg (by omega)

theorem step_digit_over (hb : isDigit b = true) (hlimit : limit < value * 10 + (b.toNat - 48)) :
    step limit (.size value) b = .fail (.tooLarge limit) := by
  rw [isDigit, decide_eq_true_eq] at hb
  rw [step, stepSize, if_pos hb]
  exact if_pos (.inr hlimit)

theorem decode_digits (hu : ∀ b ∈ u, isDigit b = true) (hlimit : digitsValue value u ≤ limit)
    (hword : digitsValue value u ≤ wordMax) :
    decode limit (.size value) u = ⟨.size (digitsValue value u), [], none⟩ := by
  induction u generalizing value with
  | nil => rfl
  | cons d u ih =>
    obtain ⟨hd, hu⟩ := List.forall_mem_cons.mp hu
    have hle : value * 10 + (d.toNat - 48) ≤ digitsValue value (d :: u) := le_digitsValue _ u
    rw [decode_more (step_digit hd (Nat.le_trans hle hlimit) (Nat.le_trans hle hword))]
    exact ih hu hlimit hword

theorem toNat_digit {c : Char} {m : Nat} (hc : c ∈ Nat.toDigits 10 m) :
    48 ≤ c.toNat ∧ c.toNat ≤ 57 := by
  have h := Nat.isDigit_of_mem_toDigits (by decide) (by decide) hc
  rw [Char.isDigit, Bool.and_eq_true, decide_eq_true_eq, decide_eq_true_eq] at h
  exact h

theorem isDigit_of_mem_sizeText (hb : b ∈ sizeText n) : isDigit b = true := by
  obtain ⟨c, hc, rfl⟩ := List.mem_map.mp hb
  have := toNat_digit hc
  rw [isDigit, decide_eq_true_eq, UInt8.toNat_ofNat']
  omega

/-- A size is read as it is written. -/
theorem digitsValue_sizeText (n : Nat) : digitsValue 0 (sizeText n) = n := by
  have h : digitsValue 0 (sizeText n) = Nat.ofDigitChars 10 (Nat.toDigits 10 n) 0 := by
    rw [digitsValue, sizeText, List.foldl_map, Nat.ofDigitChars]
    refine List.foldl_ext _ _ _ fun m c hc => ?_
    have := toNat_digit hc
    have h48 : '0'.toNat = 48 := rfl
    rw [UInt8.toNat_ofNat', h48]
    omega
  rw [h, Nat.ofDigitChars_toDigits (by decide) (by decide)]

/-! ## What stands before a frame, and its payload -/

theorem step_seek_other (hb : b ≠ marker) : step limit .seek b = .more .seek :=
  if_neg hb

theorem step_seek_marker : step limit .seek marker = .more (.size 0) := rfl

theorem step_terminator :
    step limit (.size n) terminator =
      if n = 0 then .more .seek
      else if sizeMax < n then .fail .outOfRange
      else .more (.payload [] n) :=
  rfl

theorem step_terminator_room (hn : n ≠ 0) (hroom : n ≤ sizeMax) :
    step limit (.size n) terminator = .more (.payload [] n) := by
  rw [step_terminator, if_neg hn, if_neg (by omega)]

theorem step_size_marker : step limit (.size n) marker = .more (.size 0) := rfl

theorem step_size_other (hdigit : isDigit b = false) (hterminator : b ≠ terminator)
    (hmarker : b ≠ marker) : step limit (.size n) b = .more .seek := by
  rw [isDigit, decide_eq_false_iff_not] at hdigit
  rw [step, stepSize, if_neg hdigit, if_neg hterminator, if_neg hmarker]

/-- A payload that is not complete yet. -/
theorem decode_payload_part (h : u.length < n) :
    decode limit (.payload collected n) u =
      ⟨.payload (u.reverse ++ collected) (n - u.length), [], none⟩ := by
  induction u generalizing collected n with
  | nil => rfl
  | cons b u ih =>
    rw [List.length_cons] at h
    have hstep : step limit (.payload collected n) b = .more (.payload (b :: collected) (n - 1)) :=
      if_neg (by omega)
    rw [decode_more hstep, ih (by omega)]
    simp [Nat.sub_sub, Nat.add_comm]

theorem decode_payload (h : u.length = n) (hn : 0 < n) :
    decode limit (.payload collected n) u = ⟨.seek, [collected.reverse ++ u], none⟩ := by
  obtain rfl | ⟨u, b, rfl⟩ := List.eq_nil_or_concat u
  · exact absurd h (Nat.ne_of_lt hn)
  rw [List.concat_eq_append] at h ⊢
  rw [List.length_append, List.length_singleton] at h
  have hpart : decode limit (.payload collected n) u = _ := decode_payload_part (by omega)
  have hlast : step limit (.payload (u.reverse ++ collected) (n - u.length)) b =
      .frame (b :: (u.reverse ++ collected)).reverse :=
    if_pos (by omega)
  rw [decode_append (by rw [hpart]), hpart, decode_frame hlast]
  simp [Decoded.after]

/-! ## A whole frame -/

/-- A payload that a frame can carry. -/
structure Fits (limit : Nat) (payload : Bytes) : Prop where
  nonempty : payload ≠ []
  limit : payload.length ≤ limit
  room : payload.length ≤ sizeMax

namespace Fits

theorem length_pos (h : Fits limit payload) : 0 < payload.length :=
  List.length_pos_of_ne_nil h.nonempty

theorem decode_head (h : Fits limit payload) (body : Bytes) :
    decode limit .seek (marker :: sizeText payload.length ++ terminator :: body) =
      decode limit (.payload [] payload.length) body := by
  have hword : payload.length ≤ wordMax := Nat.le_trans h.room (by decide)
  have hdigits : decode limit .seek (marker :: sizeText payload.length) =
      ⟨.size payload.length, [], none⟩ := by
    rw [decode_more step_seek_marker,
      decode_digits (fun b => isDigit_of_mem_sizeText) (by rw [digitsValue_sizeText]; exact h.limit)
        (by rw [digitsValue_sizeText]; exact hword), digitsValue_sizeText]
  rw [decode_append (by rw [hdigits]), hdigits,
    decode_more (step_terminator_room (Nat.pos_iff_ne_zero.mp h.length_pos) h.room)]
  rfl

theorem decode_encode (h : Fits limit payload) :
    decode limit .seek (encode payload) = ⟨.seek, [payload], none⟩ := by
  rw [encode, h.decode_head, decode_payload rfl h.length_pos]
  rfl

/-- The decoder is between two frames again. -/
theorem decode_encode_append (h : Fits limit payload) (rest : Bytes) :
    decode limit .seek (encode payload ++ rest) = (decode limit .seek rest).after [payload] := by
  rw [decode_append (by rw [h.decode_encode]), h.decode_encode]

end Fits

/-- The digits of a size beyond the limit. What follows them is lost. -/
theorem decode_digits_over (hu : ∀ b ∈ u, isDigit b = true) (hword : limit ≤ wordMax)
    (hvalue : value ≤ limit) (hover : limit < digitsValue value u) (v : Bytes) :
    decode limit (.size value) (u ++ v) = ⟨.seek, [], some (.tooLarge limit)⟩ := by
  induction u generalizing value with
  | nil => exact absurd hover (Nat.not_lt.mpr hvalue)
  | cons d u ih =>
    obtain ⟨hd, hu⟩ := List.forall_mem_cons.mp hu
    rw [List.cons_append]
    by_cases hnext : value * 10 + (d.toNat - 48) ≤ limit
    · rw [decode_more (step_digit hd hnext (Nat.le_trans hnext hword))]
      exact ih hu hnext hover
    · exact decode_fail (step_digit_over hd (Nat.not_le.mp hnext)) _

/-- A frame beyond the limit is refused before its payload is read. -/
theorem decode_encode_over (hword : limit ≤ wordMax) (hover : limit < payload.length) :
    decode limit .seek (encode payload) = ⟨.seek, [], some (.tooLarge limit)⟩ := by
  rw [encode, List.cons_append, decode_more step_seek_marker]
  exact decode_digits_over (fun b => isDigit_of_mem_sizeText) hword (Nat.zero_le limit)
    (by rw [digitsValue_sizeText]; exact hover) _

/-- Of a part without frames every first part is without frames. -/
theorem decode_firstPart (h : decode limit s v = ⟨s', [], none⟩) (hu : u <+: v) :
    ∃ t, decode limit s u = ⟨t, [], none⟩ := by
  obtain ⟨w, rfl⟩ := hu
  have herror : (decode limit s u).error = none := error_of_append (by rw [h])
  have hframes : (decode limit s u).frames = [] := by
    rw [decode_append herror] at h
    have := congrArg Decoded.frames h
    exact (List.append_eq_nil_iff.mp this).1
  exact ⟨(decode limit s u).state, by rw [← hframes, ← herror]⟩

/-- A frame that ends early is no frame. -/
theorem Fits.decode_part (h : Fits limit payload) (hu : u <+: encode payload)
    (hlength : u.length < (encode payload).length) :
    ∃ t, decode limit .seek u = ⟨t, [], none⟩ := by
  have hlast := List.dropLast_append_getLast h.nonempty
  have hencode : encode payload = (marker :: sizeText payload.length ++
      terminator :: payload.dropLast) ++ [payload.getLast h.nonempty] := by
    rw [List.append_assoc, List.cons_append (a := terminator), hlast]
    rfl
  have hinit : u <+: marker :: sizeText payload.length ++ terminator :: payload.dropLast := by
    rw [hencode, List.prefix_concat_iff] at hu
    refine hu.resolve_left fun heq => ?_
    rw [heq, ← hencode] at hlength
    exact Nat.lt_irrefl _ hlength
  have hshort : payload.dropLast.length < payload.length := by
    have := h.length_pos
    rw [List.length_dropLast]
    omega
  exact decode_firstPart ((h.decode_head _).trans (decode_payload_part hshort)) hinit

/-! ## A stream of frames -/

/-- The payloads whose frames are complete in the first `n` bytes of a stream of them. -/
def arrived : Nat → List Bytes → List Bytes
  | _, [] => []
  | n, payload :: rest =>
    if (encode payload).length ≤ n then payload :: arrived (n - (encode payload).length) rest
    else []

theorem arrived_all (payloads : List Bytes) :
    arrived (payloads.flatMap encode).length payloads = payloads := by
  induction payloads with
  | nil => rfl
  | cons payload rest ih =>
    rw [List.flatMap_cons, List.length_append, arrived, if_pos (Nat.le_add_right _ _),
      Nat.add_sub_cancel_left, ih]

theorem prefix_arrived (n : Nat) (payloads : List Bytes) : arrived n payloads <+: payloads := by
  induction payloads generalizing n with
  | nil => exact List.prefix_refl _
  | cons payload rest ih =>
    rw [arrived]
    split
    · exact (List.prefix_cons_inj payload).mpr (ih _)
    · exact List.nil_prefix

/-- A stream of frames that is cut off anywhere. -/
theorem decode_stream {payloads : List Bytes} (hfits : ∀ p ∈ payloads, Fits limit p)
    (hu : u <+: payloads.flatMap encode) :
    (decode limit .seek u).error = none ∧
      (decode limit .seek u).frames = arrived u.length payloads ∧
      (u.length = ((arrived u.length payloads).flatMap encode).length →
        (decode limit .seek u).state = .seek) := by
  induction payloads generalizing u with
  | nil =>
    rw [List.flatMap_nil, List.prefix_nil] at hu
    subst hu
    exact ⟨rfl, rfl, fun _ => rfl⟩
  | cons payload rest ih =>
    obtain ⟨hpayload, hrest⟩ := List.forall_mem_cons.mp hfits
    rw [List.flatMap_cons] at hu
    rw [arrived]
    by_cases hlength : (encode payload).length ≤ u.length
    · -- the first frame is complete, and what follows it begins the rest of the stream
      obtain ⟨v, rfl⟩ := List.prefix_of_prefix_length_le (List.prefix_append _ _) hu hlength
      obtain ⟨herror, hframes, hstate⟩ := ih hrest (List.prefix_append_right_inj _ |>.mp hu)
      rw [hpayload.decode_encode_append, if_pos hlength, List.length_append,
        Nat.add_sub_cancel_left]
      refine ⟨herror, congrArg (payload :: ·) hframes, fun hend => hstate ?_⟩
      rw [List.flatMap_cons, List.length_append] at hend
      omega
    · -- the stream is cut off inside the first frame
      have hpart : u <+: encode payload :=
        List.prefix_of_prefix_length_le hu (List.prefix_append _ _) (by omega)
      obtain ⟨t, ht⟩ := hpayload.decode_part hpart (by omega)
      rw [ht, if_neg hlength]
      refine ⟨rfl, rfl, fun hend => ?_⟩
      rw [List.flatMap_nil, List.length_nil, List.length_eq_zero_iff] at hend
      subst hend
      exact (congrArg Decoded.state ht).symm

end

end Courier.Frame
