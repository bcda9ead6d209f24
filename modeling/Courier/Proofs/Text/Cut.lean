import Courier.Text.Cut
import Mathlib.Data.List.Basic

/-!
Cuts at the last place of a separator, texts that have no separator to be cut at, and the pieces
between all separators.
-/

namespace Courier.Text

section

variable {c : Char} {cs a b : List Char}

theorem cutLast_eq_none_iff : cutLast c cs = none ↔ c ∉ cs := by
  induction cs with
  | nil => simp [cutLast]
  | cons d rest ih =>
    rw [List.mem_cons, not_or, ← ih, cutLast]
    cases h : cutLast c rest with
    | some x => simp
    | none => simp [eq_comm]

theorem cutLast_append (hb : c ∉ b) : cutLast c (a ++ c :: b) = some (a, b) := by
  induction a with
  | nil => rw [List.nil_append, cutLast, cutLast_eq_none_iff.mpr hb, if_pos rfl]
  | cons d a ih => rw [List.cons_append, cutLast, ih]

theorem cutLast_eq_some_iff : cutLast c cs = some (a, b) ↔ c ∉ b ∧ cs = a ++ c :: b := by
  constructor
  · intro h
    induction cs generalizing a with
    | nil => cases h
    | cons d rest ih =>
      rw [cutLast] at h
      cases hrest : cutLast c rest with
      | some x =>
        obtain ⟨a', b'⟩ := x
        rw [hrest] at h
        cases h
        obtain ⟨hb, rfl⟩ := ih hrest
        exact ⟨hb, rfl⟩
      | none =>
        rw [hrest] at h
        dsimp only at h
        split at h
        · next hd =>
          cases h
          exact ⟨cutLast_eq_none_iff.mp hrest, by rw [hd]; rfl⟩
        · cases h
  · rintro ⟨hb, rfl⟩
    exact cutLast_append hb

theorem cutFirst_append (ha : c ∉ a) : cutFirst c (a ++ c :: b) = some (a, b) :=
  cutFirst_eq_some_iff.mpr ⟨ha, rfl⟩

/-- What stands before the first separator, if there is one, and after it. -/
theorem getD_cutFirst (c : Char) (cs : List Char) :
    (cutFirst c cs).getD (cs, []) = (cs.takeWhile (· ≠ c), (cs.dropWhile (· ≠ c)).tail) := by
  induction cs with
  | nil => rfl
  | cons d rest ih =>
    by_cases hd : d = c
    · simp [cutFirst, hd]
    · rw [cutFirst, if_neg hd, List.takeWhile_cons_of_pos (by simpa using hd),
        List.dropWhile_cons_of_pos (by simpa using hd)]
      obtain ⟨hbefore, hafter⟩ := Prod.mk.inj ih
      rw [← hbefore, ← hafter]
      cases cutFirst c rest <;> rfl

theorem segments_of_notMem (h : c ∉ cs) : segments c cs = [cs] := by
  induction cs with
  | nil => rfl
  | cons d rest ih =>
    obtain ⟨hd, hrest⟩ := not_or.mp (mt List.mem_cons.mpr h)
    rw [segments, if_neg (Ne.symm hd), ih hrest]

theorem segments_eq_splitOn (c : Char) (cs : List Char) : segments c cs = cs.splitOn c := by
  induction cs with
  | nil => rfl
  | cons d rest ih =>
    have hne := rest.splitOn_ne_nil c
    have hsplit : (d :: rest).splitOn c =
        if (d == c) = true then [] :: rest.splitOn c else (rest.splitOn c).modifyHead (d :: ·) :=
      List.splitOnP_cons_eq_if_modifyHead d rest
    rw [segments, ih, hsplit]
    by_cases hd : d = c
    · rw [if_pos hd, if_pos (beq_iff_eq.mpr hd)]
    · rw [if_neg hd, if_neg (mt beq_iff_eq.mp hd)]
      cases hpieces : rest.splitOn c with
      | nil => exact absurd hpieces hne
      | cons piece more => rfl

/-- The first piece ends before the first separator. -/
theorem headD_segments (c : Char) (cs : List Char) :
    (segments c cs).headD [] = cs.takeWhile (· ≠ c) := by
  induction cs with
  | nil => rfl
  | cons d rest ih =>
    rw [segments]
    by_cases hd : d = c
    · rw [if_pos hd, List.takeWhile_cons_of_neg (by simpa using hd)]
      rfl
    · rw [if_neg hd, List.takeWhile_cons_of_pos (by simpa using hd), ← ih]
      cases segments c rest <;> rfl

theorem notMem_takeWhile_ne (c : Char) (cs : List Char) : c ∉ cs.takeWhile (· ≠ c) := fun hmem => by
  have hne := List.all_eq_true.mp (List.all_takeWhile (p := (· ≠ c)) (l := cs)) c hmem
  exact of_decide_eq_true hne rfl

end

end Courier.Text
