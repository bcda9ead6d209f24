/-!
Cutting a text at a separator: at its first or last place, or at every place.
-/

namespace Courier.Text

/-- What stands before and after the first `c`. -/
def cutFirst (c : Char) : List Char → Option (List Char × List Char)
  | [] => none
  | d :: rest =>
    if d = c then some ([], rest)
    else (cutFirst c rest).map fun (a, b) => (d :: a, b)

/-- What stands before and after the last `c`. -/
def cutLast (c : Char) : List Char → Option (List Char × List Char)
  | [] => none
  | d :: rest =>
    match cutLast c rest with
    | some (a, b) => some (d :: a, b)
    | none => if d = c then some ([], rest) else none

/-- The pieces between the places of `c`, always at least one. -/
def segments (c : Char) : List Char → List (List Char)
  | [] => [[]]
  | d :: rest =>
    if d = c then [] :: segments c rest
    else
      match segments c rest with
      | [] => [[d]]
      | s :: more => (d :: s) :: more

theorem cutFirst_eq_some_iff {c : Char} {cs a b : List Char} :
    cutFirst c cs = some (a, b) ↔ c ∉ a ∧ cs = a ++ c :: b := by
  induction cs generalizing a b with
  | nil => simp [cutFirst]
  | cons d rest ih =>
    by_cases h : d = c
    · subst h
      cases a <;> simp [cutFirst, eq_comm]
      grind
    · simp only [cutFirst, h, if_false, Option.map_eq_some_iff, Prod.exists, ih]
      cases a with
      | nil => grind
      | cons x a => grind

end Courier.Text
