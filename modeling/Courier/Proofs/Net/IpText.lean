import Courier.Net.IpText
import Courier.Proofs.Text.Integer

/-!
The text of internet addresses, and what is read from it. Main statement: every address of
either family is read back from its text, alone and with a port.
-/

namespace Courier

namespace Ip

variable {cs rest : List Char}

theorem after_self (c : Char) (rest : List Char) : after c (c :: rest) = some rest := if_pos rfl

theorem after_eq_none {c : Char} (h : cs.head? ≠ some c) : after c cs = none := by
  cases cs with
  | nil => rfl
  | cons d rest => exact if_neg fun hc => h (congrArg some hc.symm)

/-! ## Numbers -/

/-- A text that no digit of a radix stands in front of. -/
def StopsDigits (radix : Nat) (rest : List Char) : Prop :=
  ∀ c ∈ rest.head?, Text.digit? radix c = none

theorem stopsDigits_cons {radix : Nat} {c : Char} (h : Text.digit? radix c = none)
    (rest : List Char) : StopsDigits radix (c :: rest) := fun d hd => by
  obtain rfl : c = d := Option.some.inj hd
  exact h

/-- A run of digits, cut off where it ends. -/
theorem span_digits {radix : Nat} (hcs : ∀ c ∈ cs, (Text.digit? radix c).isSome = true)
    (hrest : StopsDigits radix rest) :
    (cs ++ rest).takeWhile (fun c => (Text.digit? radix c).isSome) = cs ∧
      (cs ++ rest).dropWhile (fun c => (Text.digit? radix c).isSome) = rest := by
  rw [List.takeWhile_append_of_pos hcs, List.dropWhile_append_of_pos hcs]
  cases rest with
  | nil => exact ⟨List.append_nil _, rfl⟩
  | cons c rest =>
    have hc : Text.digit? radix c = none := hrest c rfl
    simp [hc]

theorem readNumber_toDigits {radix limit n : Nat} {width : Option Nat} (leadingZeros : Bool)
    (hbase : 1 < radix) (hradix : radix ≤ 16)
    (hwidth : ∀ w ∈ width, (Nat.toDigits radix n).length ≤ w)
    (hlimit : n ≤ limit) (hrest : StopsDigits radix rest) :
    readNumber radix width limit leadingZeros (Nat.toDigits radix n ++ rest) = some (n, rest) := by
  obtain ⟨htake, hdrop⟩ :=
    span_digits (fun c => Text.isSome_digit?_of_mem_toDigits (n := n) hbase hradix) hrest
  have hfits : ¬ width.any (· < (Nat.toDigits radix n).length) = true := by
    cases width with
    | none => exact Bool.false_ne_true
    | some w => simpa using hwidth w rfl
  -- a leading zero stands alone
  have hlead : ¬ (!leadingZeros && (Nat.toDigits radix n).head? == some '0' &&
      decide ((Nat.toDigits radix n).length > 1)) = true := fun hzero => by
    simp only [Bool.and_eq_true, beq_iff_eq, decide_eq_true_eq] at hzero
    obtain ⟨⟨_, hhead⟩, hlong⟩ := hzero
    obtain rfl := Text.eq_zero_of_head?_toDigits hbase hradix hhead
    rw [Nat.toDigits_of_lt_base (by omega)] at hlong
    exact absurd hlong (Nat.lt_irrefl 1)
  unfold readNumber
  dsimp only
  rw [htake, hdrop, Text.digitsValue_toDigits hbase hradix, if_neg Nat.toDigits_ne_nil,
    if_neg hfits, if_neg hlead, if_neg (Nat.not_lt.mpr hlimit)]

/-- A number is at least one digit. -/
theorem readNumber_stops {radix : Nat} (width : Option Nat) (limit : Nat) (leadingZeros : Bool)
    (h : StopsDigits radix cs) : readNumber radix width limit leadingZeros cs = none := by
  have htake : cs.takeWhile (fun c => (Text.digit? radix c).isSome) = [] := by
    cases cs with
    | nil => rfl
    | cons c rest => exact List.takeWhile_cons_of_neg (by simp [h c rfl])
  unfold readNumber
  dsimp only
  rw [htake, if_pos rfl]

/-! ## Octets -/

theorem readOctet_toDigits (x : UInt8) (hrest : StopsDigits 10 rest) :
    readOctet (Nat.toDigits 10 x.toNat ++ rest) = some (x, rest) := by
  have hx := x.toNat_lt
  have hwidth : (Nat.toDigits 10 x.toNat).length ≤ 3 :=
    (Nat.length_toDigits_le_iff (by decide) (by decide)).mpr (by omega)
  rw [readOctet, readNumber_toDigits false (by decide) (by decide)
    (by rintro _ ⟨⟩; exact hwidth) (by omega) hrest]
  exact congrArg (fun y => some (y, rest)) UInt8.ofNat_toNat

theorem readOctets_octetsText (a b c d : UInt8) (hrest : StopsDigits 10 rest) :
    readOctets (octetsText a b c d ++ rest) = some ((a, b, c, d), rest) := by
  have hdot (cs : List Char) : StopsDigits 10 ('.' :: cs) := stopsDigits_cons rfl cs
  unfold readOctets octetsText
  simp only [List.append_assoc, List.cons_append, readOctet_toDigits _ (hdot _), after_self,
    Option.bind_eq_bind, Option.bind_some, readOctet_toDigits d hrest]
  rfl

theorem readOctet_snd {x : UInt8} (h : readOctet cs = some (x, rest)) :
    rest = cs.dropWhile fun c => (Text.digit? 10 c).isSome := by
  obtain ⟨⟨n, rest'⟩, hn, heq⟩ := Option.map_eq_some_iff.mp h
  cases heq
  unfold readNumber at hn
  dsimp only at hn
  split_ifs at hn
  exact (congrArg Prod.snd (Option.some.inj hn)).symm

/-- Without a dot after the first number there are no octets. -/
theorem readOctets_eq_none
    (h : (cs.dropWhile fun c => (Text.digit? 10 c).isSome).head? ≠ some '.') :
    readOctets cs = none := by
  unfold readOctets
  cases hx : readOctet cs with
  | none => rfl
  | some found =>
    obtain ⟨x, rest⟩ := found
    rw [← readOctet_snd hx] at h
    simp only [Option.bind_eq_bind, Option.bind_some, after_eq_none h]
    rfl

/-! ## Groups -/

/-- What may follow a group: nothing that could be part of it, or of octets. -/
structure Bounds (rest : List Char) : Prop where
  digits : StopsDigits 16 rest
  dot : rest.head? ≠ some '.'

theorem bounds_cons {c : Char} (hdigit : Text.digit? 16 c = none) (hdot : c ≠ '.')
    (rest : List Char) : Bounds (c :: rest) :=
  ⟨stopsDigits_cons hdigit rest, fun h => hdot (Option.some.inj h)⟩

theorem Bounds.decimal (h : Bounds rest) : StopsDigits 10 rest := fun c hc =>
  Text.digit?_eq_none_of_le (by decide) (h.digits c hc)

theorem readGroup_hexText (g : UInt16) (hrest : Bounds rest) :
    readGroup (hexText g ++ rest) = some (g, rest) := by
  have hg := g.toNat_lt
  have hwidth : (Nat.toDigits 16 g.toNat).length ≤ 4 :=
    (Nat.length_toDigits_le_iff (by decide) (by decide)).mpr (by omega)
  rw [readGroup, hexText, readNumber_toDigits true (by decide) (by decide)
    (by rintro _ ⟨⟩; exact hwidth) (by omega) hrest.digits]
  exact congrArg (fun y => some (y, rest)) UInt16.ofNat_toNat

/-- A text without a dot holds no octets. -/
theorem readOctets_append (hcs : '.' ∉ cs) (hrest : Bounds rest) :
    readOctets (cs ++ rest) = none := by
  refine readOctets_eq_none ?_
  induction cs with
  | nil =>
    have hspan := span_digits (fun c hc => absurd hc List.not_mem_nil) hrest.decimal
    rw [hspan.2]
    exact hrest.dot
  | cons c cs ih =>
    obtain ⟨hc, hcs⟩ := not_or.mp (List.mem_cons.not.mp hcs)
    rw [List.cons_append, List.dropWhile_cons]
    split
    · exact ih hcs
    · exact fun h => hc (Option.some.inj h).symm

theorem Bounds.noOctets (hrest : Bounds rest) : readOctets rest = none :=
  @readOctets_append [] rest nofun hrest

theorem dot_notMem_hexText (g : UInt16) : '.' ∉ hexText g :=
  Text.not_mem_toDigits (by decide) (by decide) rfl

/-- Groups as they stand after a first one. -/
def moreGroups (gs : List UInt16) : List Char := gs.flatMap fun g => ':' :: hexText g

theorem groupsText_cons (g : UInt16) (gs : List UInt16) :
    groupsText (g :: gs) = hexText g ++ moreGroups gs := by
  induction gs generalizing g with
  | nil => exact (List.append_nil _).symm
  | cons h gs ih =>
    rw [groupsText, ih h]
    · rfl
    · exact nofun

theorem bounds_moreGroups (gs : List UInt16) (hrest : Bounds rest) :
    Bounds (moreGroups gs ++ rest) := by
  cases gs with
  | nil => exact hrest
  | cons g gs => exact bounds_cons rfl (by decide) _

/-- A text that no group stands in front of. -/
structure Closes (rest : List Char) : Prop extends Bounds rest where
  groups : ∀ first room, readGroups first room rest = ([], false, rest)

theorem readGroups_none {first : Bool} {room : Nat}
    (hoctets : ((if first then some cs else after ':' cs) >>= readOctets) = none)
    (hgroup : ((if first then some cs else after ':' cs) >>= readGroup) = none) :
    readGroups first room cs = ([], false, cs) := by
  cases room with
  | zero => rfl
  | succ room =>
    unfold readGroups
    dsimp only
    rw [hoctets, hgroup, ite_self]

theorem readGroup_stops (h : StopsDigits 16 rest) : readGroup rest = none := by
  rw [readGroup, readNumber_stops _ _ _ h]
  rfl

/-- The end of an address. -/
theorem closes_of_head (h : Bounds rest) (hcolon : rest.head? ≠ some ':') : Closes rest where
  toBounds := h
  groups first room := by
    refine readGroups_none ?_ ?_
    all_goals cases first
    · rw [if_neg Bool.false_ne_true, after_eq_none hcolon]; rfl
    · exact h.noOctets
    · rw [if_neg Bool.false_ne_true, after_eq_none hcolon]; rfl
    · exact readGroup_stops h.digits

/-- The gap between the two halves of an address. -/
theorem closes_gap (rest : List Char) : Closes (':' :: ':' :: rest) where
  toBounds := bounds_cons rfl (by decide) _
  groups first room := by
    have hbounds (cs : List Char) : Bounds (':' :: cs) := bounds_cons rfl (by decide) cs
    refine readGroups_none ?_ ?_
    all_goals cases first
    · exact (hbounds rest).noOctets
    · exact (hbounds (':' :: rest)).noOctets
    · exact readGroup_stops (hbounds rest).digits
    · exact readGroup_stops (hbounds (':' :: rest)).digits

theorem readGroups_succ {first : Bool} {room : Nat} {g : UInt16} {text : List Char}
    (hstart : (if first then some cs else after ':' cs) = some (hexText g ++ text))
    (htext : Bounds text) :
    readGroups first (room + 1) cs =
      (g :: (readGroups false room text).1, (readGroups false room text).2) := by
  conv_lhs => unfold readGroups
  dsimp only
  rw [hstart]
  simp only [Option.bind_eq_bind, Option.bind_some, readGroup_hexText g htext,
    readOctets_append (dot_notMem_hexText g) htext, ite_self]

theorem readGroups_moreGroups {room : Nat} {gs : List UInt16} (hroom : gs.length ≤ room)
    (hrest : Closes rest) :
    readGroups false room (moreGroups gs ++ rest) = (gs, false, rest) := by
  induction gs generalizing room with
  | nil => exact hrest.groups false room
  | cons g gs ih =>
    obtain ⟨room, rfl⟩ : ∃ r, room = r + 1 := ⟨room - 1, by simp at hroom; omega⟩
    have hstart : after ':' (moreGroups (g :: gs) ++ rest) =
        some (hexText g ++ (moreGroups gs ++ rest)) := by
      simp [moreGroups, after_self]
    rw [readGroups_succ (by simpa using hstart) (bounds_moreGroups gs hrest.toBounds),
      ih (by simpa using hroom)]

theorem readGroups_groupsText {room : Nat} {gs : List UInt16} (hroom : gs.length ≤ room)
    (hrest : Closes rest) :
    readGroups true room (groupsText gs ++ rest) = (gs, false, rest) := by
  cases gs with
  | nil => exact hrest.groups true room
  | cons g gs =>
    obtain ⟨room, rfl⟩ : ∃ r, room = r + 1 := ⟨room - 1, by simp at hroom; omega⟩
    rw [groupsText_cons, List.append_assoc,
      readGroups_succ (if_pos rfl) (bounds_moreGroups gs hrest.toBounds),
      readGroups_moreGroups (by simpa using hroom) hrest]

/-! ## Eight groups -/

theorem replicate_zeroRun (gs : List UInt16) :
    gs = List.replicate (zeroRun gs) 0 ++ gs.drop (zeroRun gs) := by
  induction gs with
  | nil => rfl
  | cons g gs ih =>
    by_cases hg : g = 0
    · have hrun : zeroRun (g :: gs) = zeroRun gs + 1 := by simp [zeroRun, hg]
      rw [hrun, List.replicate_succ, List.drop_succ_cons, List.cons_append, ← ih, hg]
    · have hrun : zeroRun (g :: gs) = 0 := by simp [zeroRun, hg]
      rw [hrun]
      rfl

/-- The longest run of zeros is one. -/
theorem longestZeroRun_spec (gs : List UInt16) :
    gs = gs.take (longestZeroRun gs).1 ++ List.replicate (longestZeroRun gs).2 0 ++
      gs.drop ((longestZeroRun gs).1 + (longestZeroRun gs).2) := by
  induction gs with
  | nil => rfl
  | cons g gs ih =>
    unfold longestZeroRun
    dsimp only
    split
    · simpa using replicate_zeroRun (g :: gs)
    · rw [Nat.add_right_comm, List.take_succ_cons, List.drop_succ_cons]
      exact congrArg (g :: ·) ih

theorem pairGroup_halves (g : UInt16) : pairGroup (g >>> 8).toUInt8 g.toUInt8 = g := by
  have hg := g.toNat_lt
  refine UInt16.toNat_inj.mp ?_
  simp [pairGroup, Nat.shiftRight_eq_div_pow]
  omega

theorem eq_of_mapped? {gs : List UInt16} {a b c d : UInt8} (h : mapped? gs = some (a, b, c, d)) :
    gs = [0, 0, 0, 0, 0, 0xffff, pairGroup a b, pairGroup c d] := by
  unfold mapped? at h
  split at h
  · next hi lo =>
    cases h
    rw [pairGroup_halves, pairGroup_halves]
  · cases h

section

variable {gs head tail : List UInt16}

/-- All eight groups, one after the other. -/
theorem readV6_groupsText (hgs : gs.length = 8) (hrest : Closes rest) :
    readV6 (groupsText gs ++ rest) = some (gs, rest) := by
  unfold readV6
  rw [readGroups_groupsText (Nat.le_of_eq hgs) hrest]
  exact if_pos hgs

/-- Two parts with a gap between them. -/
theorem readV6_of_gap (head : List UInt16) {text : List Char} {dotted : Bool}
    (hhead : readGroups true 8 cs = (head, false, ':' :: ':' :: text)) (hlength : head.length < 8)
    (htail : readGroups true (7 - head.length) text = (tail, dotted, rest)) :
    readV6 cs =
      some (head ++ List.replicate (8 - head.length - tail.length) 0 ++ tail, rest) := by
  unfold readV6
  rw [hhead]
  dsimp only
  rw [if_neg (Nat.ne_of_lt hlength), if_neg Bool.false_ne_true]
  simp only [Option.bind_eq_bind, Option.bind_some, after_self, htail]
  rfl

theorem readV6_gap (hlength : head.length + tail.length < 8) (hrest : Closes rest) :
    readV6 (groupsText head ++ "::".toList ++ groupsText tail ++ rest) =
      some (head ++ List.replicate (8 - head.length - tail.length) 0 ++ tail, rest) := by
  rw [List.append_assoc, List.append_assoc]
  exact readV6_of_gap head
    (readGroups_groupsText (by omega) (closes_gap (groupsText tail ++ rest))) (by omega)
    (readGroups_groupsText (by omega) hrest)

/-- Dotted octets take the places of the last two groups. -/
theorem readGroups_octetsText (a b c d : UInt8) (room : Nat) (hrest : Bounds rest) :
    readGroups false (room + 2) (':' :: (octetsText a b c d ++ rest)) =
      ([pairGroup a b, pairGroup c d], true, rest) := by
  unfold readGroups
  dsimp only
  rw [if_neg (Nat.succ_ne_zero room), if_neg Bool.false_ne_true, after_self, Option.bind_eq_bind,
    Option.bind_some, readOctets_octetsText a b c d hrest.decimal]

/-- An address of the older family inside one of the newer. -/
theorem readV6_mapped (a b c d : UInt8) (hrest : Bounds rest) :
    readV6 ("::ffff:".toList ++ octetsText a b c d ++ rest) =
      some ([0, 0, 0, 0, 0, 0xffff, pairGroup a b, pairGroup c d], rest) := by
  have htail : readGroups true 7 (hexText 0xffff ++ (':' :: (octetsText a b c d ++ rest))) =
      ([0xffff, pairGroup a b, pairGroup c d], true, rest) := by
    rw [readGroups_succ (if_pos rfl) (bounds_cons rfl (by decide) _),
      readGroups_octetsText a b c d 4 hrest]
  exact readV6_of_gap [] ((closes_gap _).groups true 8) (by decide) htail

theorem readV6_groupsCanonical (hgs : gs.length = 8) (hrest : Closes rest) :
    readV6 (groupsCanonical gs ++ rest) = some (gs, rest) := by
  unfold groupsCanonical
  split
  · next a b c d hmapped =>
    rw [readV6_mapped a b c d hrest.toBounds, ← eq_of_mapped? hmapped]
  · dsimp only
    split
    · exact readV6_groupsText hgs hrest
    · next hlong =>
      have hrun := longestZeroRun_spec gs
      generalize (longestZeroRun gs).1 = start at hrun ⊢
      generalize (longestZeroRun gs).2 = length at hrun hlong ⊢
      have hparts := congrArg List.length hrun
      simp only [List.length_append, List.length_take, List.length_drop, List.length_replicate]
        at hparts
      have hlength : (gs.take start).length + (gs.drop (start + length)).length < 8 := by
        rw [List.length_take, List.length_drop]
        omega
      have hzeros : 8 - (gs.take start).length - (gs.drop (start + length)).length = length := by
        rw [List.length_take, List.length_drop]
        omega
      rw [readV6_gap hlength hrest, hzeros, ← hrun]

end

/-! ## Whole addresses -/

/-- No text of an address of the newer family starts with octets. -/
theorem readOctets_groupsText (gs : List UInt16) (hrest : Bounds rest) :
    readOctets (groupsText gs ++ rest) = none := by
  cases gs with
  | nil => exact hrest.noOctets
  | cons g gs =>
    rw [groupsText_cons, List.append_assoc]
    exact readOctets_append (dot_notMem_hexText g) (bounds_moreGroups gs hrest)

theorem readOctets_groupsCanonical (gs : List UInt16) (hrest : Bounds rest) :
    readOctets (groupsCanonical gs ++ rest) = none := by
  unfold groupsCanonical
  split
  · exact (closes_gap _).toBounds.noOctets
  · dsimp only
    split
    · exact readOctets_groupsText gs hrest
    · rw [List.append_assoc, List.append_assoc]
      exact readOctets_groupsText _ (closes_gap _).toBounds

theorem ofGroups?_toList (groups : Vector UInt16 8) :
    ofGroups? groups.toList = some (v6 groups) := by
  rw [ofGroups?, dif_pos groups.length_toList]
  rfl

theorem read_toChars (ip : Ip) (hrest : Closes rest) :
    read (ip.toChars ++ rest) = some (ip, rest) := by
  unfold read
  cases ip with
  | v4 a b c d => rw [toChars, readOctets_octetsText a b c d hrest.toBounds.decimal]
  | v6 groups =>
    rw [toChars, readOctets_groupsCanonical _ hrest.toBounds,
      readV6_groupsCanonical groups.length_toList hrest]
    simp only [Option.bind_eq_bind, Option.bind_some, ofGroups?_toList]
    rfl

theorem closes_nil : Closes [] := closes_of_head ⟨nofun, nofun⟩ nofun

/-- Every address is read back from its text. -/
theorem ofText?_text (ip : Ip) : ofText? ip.text = some ip := by
  have hread := read_toChars ip closes_nil
  rw [List.append_nil] at hread
  rw [ofText?, text, String.toList_ofList, ofChars?, hread]

/-! ## Characters -/

/-- The characters that the text of an address can have. -/
def IsAddressChar (c : Char) : Prop := (Text.digit? 16 c).isSome = true ∨ c = '.' ∨ c = ':'

theorem isSome_digit?_of_decimal {c : Char} (h : (Text.digit? 10 c).isSome = true) :
    (Text.digit? 16 c).isSome = true := by
  rw [Option.isSome_iff_ne_none] at h ⊢
  exact mt (Text.digit?_eq_none_of_le (by decide)) h

theorem isSome_digit?_of_mem_octetsText {a b c d : UInt8} {x : Char}
    (hx : x ∈ octetsText a b c d) : (Text.digit? 10 x).isSome = true ∨ x = '.' := by
  have hdigit (y : UInt8) (h : x ∈ Nat.toDigits 10 y.toNat) :
      (Text.digit? 10 x).isSome = true :=
    Text.isSome_digit?_of_mem_toDigits (by decide) (by decide) h
  simp only [octetsText, List.mem_append, List.mem_cons, or_assoc] at hx
  rcases hx with ha | rfl | hb | rfl | hc | rfl | hd
  · exact .inl (hdigit a ha)
  · exact .inr rfl
  · exact .inl (hdigit b hb)
  · exact .inr rfl
  · exact .inl (hdigit c hc)
  · exact .inr rfl
  · exact .inl (hdigit d hd)

theorem isAddressChar_of_mem_groupsText {gs : List UInt16} {x : Char}
    (hx : x ∈ groupsText gs) : IsAddressChar x := by
  have hdigit (g : UInt16) (h : x ∈ hexText g) : IsAddressChar x :=
    .inl (Text.isSome_digit?_of_mem_toDigits (by decide) (by decide) h)
  cases gs with
  | nil => cases hx
  | cons g gs =>
    rw [groupsText_cons, List.mem_append, moreGroups, List.mem_flatMap] at hx
    rcases hx with hg | ⟨h, _, hx⟩
    · exact hdigit g hg
    · rcases List.mem_cons.mp hx with rfl | hx
      · exact .inr (.inr rfl)
      · exact hdigit h hx

theorem isAddressChar_of_mem_toChars {ip : Ip} {x : Char} (hx : x ∈ ip.toChars) :
    IsAddressChar x := by
  have hoctets {a b c d : UInt8} (h : x ∈ octetsText a b c d) : IsAddressChar x :=
    (isSome_digit?_of_mem_octetsText h).imp isSome_digit?_of_decimal .inl
  cases ip with
  | v4 a b c d => exact hoctets hx
  | v6 groups =>
    dsimp only [toChars] at hx
    unfold groupsCanonical at hx
    split at hx
    · rcases List.mem_append.mp hx with hfront | hx
      · have hcolon : IsAddressChar ':' := .inr (.inr rfl)
        have hdigit : IsAddressChar 'f' := .inl rfl
        have hall : ∀ c ∈ [':', ':', 'f', 'f', 'f', 'f', ':'], IsAddressChar c := by
          simp [hcolon, hdigit]
        exact hall x hfront
      · exact hoctets hx
    · dsimp only at hx
      split at hx
      · exact isAddressChar_of_mem_groupsText hx
      · simp only [List.mem_append] at hx
        rcases hx with (hx | hgap) | hx
        · exact isAddressChar_of_mem_groupsText hx
        · obtain rfl : x = ':' := by simpa using hgap
          exact .inr (.inr rfl)
        · exact isAddressChar_of_mem_groupsText hx

theorem notMem_text {ip : Ip} {c : Char} (hc : ¬ IsAddressChar c) : c ∉ ip.text.toList := by
  rw [text, String.toList_ofList]
  exact mt isAddressChar_of_mem_toChars hc

theorem head?_text_ne {ip : Ip} {c : Char} (hc : ¬ IsAddressChar c) :
    ip.text.toList.head? ≠ some c :=
  mt List.mem_of_mem_head? (notMem_text hc)

theorem text_ne_empty (ip : Ip) : ip.text ≠ "" := fun h => by
  have hreads := ip.ofText?_text
  rw [h] at hreads
  cases hreads

theorem not_isAddressChar_comma : ¬ IsAddressChar ',' := by
  unfold IsAddressChar
  decide

theorem not_isAddressChar_bracket : ¬ IsAddressChar '[' := by
  unfold IsAddressChar
  decide

theorem colon_notMem_v4 (a b c d : UInt8) : ':' ∉ (v4 a b c d).toChars := fun h => by
  rcases isSome_digit?_of_mem_octetsText h with hdigit | hdot
  · cases hdigit
  · cases hdot

theorem colon_mem_v6 (groups : Vector UInt16 8) : ':' ∈ (v6 groups).toChars := by
  dsimp only [toChars]
  unfold groupsCanonical
  split
  · exact List.mem_append_left _ (by decide)
  · dsimp only
    split
    · have hlength := groups.length_toList
      match hgs : groups.toList with
      | [] | [_] => simp [hgs] at hlength
      | g :: h :: gs =>
        rw [groupsText_cons]
        exact List.mem_append_right _ List.mem_cons_self
    · exact List.mem_append_left _ (List.mem_append_right _ (by decide))

end Ip

namespace SocketAddr

theorem readPort_portText (p : UInt16) : readPort (':' :: portText p) = some p := by
  have hp := p.toNat_lt
  have hread : Ip.readNumber 10 none 65535 true (portText p ++ []) = some (p.toNat, []) :=
    Ip.readNumber_toDigits true (by decide) (by decide) nofun (by omega) nofun
  rw [List.append_nil] at hread
  rw [readPort, Ip.after_self, Option.bind_eq_bind, Option.bind_some, hread]
  exact congrArg some UInt16.ofNat_toNat

/-- Every address with a port is read back from its text. -/
theorem ofChars?_toChars (ip : Ip) (port : UInt16) :
    ofChars? (toChars ⟨ip, port, 0⟩) = some ⟨ip, port, 0⟩ := by
  cases ip with
  | v4 a b c d =>
    unfold ofChars?
    dsimp only [toChars, Ip.toChars]
    rw [Ip.readOctets_octetsText a b c d (Ip.stopsDigits_cons rfl _)]
    dsimp only
    rw [readPort_portText]
    rfl
  | v6 groups =>
    have hend : Ip.Closes (']' :: ':' :: portText port) :=
      Ip.closes_of_head (Ip.bounds_cons rfl (by decide) _) nofun
    have htext : toChars ⟨.v6 groups, port, 0⟩ =
        '[' :: (Ip.groupsCanonical groups.toList ++ ']' :: ':' :: portText port) := by
      simp [toChars, Ip.toChars]
    have hoctets : Ip.readOctets (toChars ⟨.v6 groups, port, 0⟩) = none := by
      rw [htext]
      exact (Ip.bounds_cons rfl (by decide) _).noOctets
    have hscope : readScope (']' :: ':' :: portText port) =
        some (0, ']' :: ':' :: portText port) := rfl
    unfold ofChars?
    rw [hoctets, htext]
    simp only [Option.bind_eq_bind, Option.bind_some, Ip.after_self,
      Ip.readV6_groupsCanonical groups.length_toList hend, Ip.ofGroups?_toList, hscope,
      readPort_portText]
    rfl

end SocketAddr

end Courier
