import Mathlib.Data.List.Nodup
import Std.Data.TreeMap
import Std.Data.TreeSet

/-!
Lists as tables of keys and values, lists without one of their elements, arrays with one entry
changed, and the members of sets of numbers as lists.
-/

namespace Courier

section Lookup

variable {α β : Type} [BEq α] [LawfulBEq α]

theorem lookup_filter_key (l : List (α × β)) (keep : α → Bool) (k : α) :
    (l.filter fun x => keep x.1).lookup k = if keep k then l.lookup k else none := by
  induction l with
  | nil => simp
  | cons x l ih =>
    obtain ⟨k', b⟩ := x
    by_cases hk : k = k'
    · subst hk
      cases hkeep : keep k <;> simp [hkeep, ih]
    · have hne : (k == k') = false := beq_eq_false_iff_ne.mpr hk
      cases hkeep : keep k' <;> simp [hkeep, ih, List.lookup_cons, hne]

theorem mem_keys_iff {l : List (α × β)} {k : α} :
    k ∈ l.map (·.1) ↔ ∃ b, l.lookup k = some b := by
  rw [← Option.isSome_iff_exists, List.lookup_isSome_iff, List.mem_map]
  simp only [beq_iff_eq, @eq_comm _ k]

/-- With distinct keys a lookup finds every entry. -/
theorem lookup_eq_some_iff {l : List (α × β)} (hd : (l.map (·.1)).Nodup) {k : α} {b : β} :
    l.lookup k = some b ↔ (k, b) ∈ l := by
  induction l with
  | nil => simp
  | cons x l ih =>
    obtain ⟨k', b'⟩ := x
    obtain ⟨hnot, hd'⟩ := List.nodup_cons.mp hd
    by_cases hk : k = k'
    · subst hk
      have : (k, b) ∉ l := fun hm => hnot (List.mem_map.mpr ⟨_, hm, rfl⟩)
      simp [this, eq_comm]
    · have hne : (k == k') = false := beq_eq_false_iff_ne.mpr hk
      simp [List.lookup_cons, hne, ih hd', hk]

theorem lookup_filter {l : List (α × β)} (hd : (l.map (·.1)).Nodup) (p : β → Bool) (k : α) :
    (l.filter fun x => p x.2).lookup k = (l.lookup k).filter p := by
  have hd' : ((l.filter fun x => p x.2).map (·.1)).Nodup :=
    hd.sublist (List.filter_sublist.map _)
  ext b
  rw [lookup_eq_some_iff hd', Option.filter_eq_some_iff, lookup_eq_some_iff hd, List.mem_filter]

end Lookup

/-- A list is one of its elements and the others. -/
theorem perm_eraseIdx {α : Type} {l : List α} {i : Nat} {a : α} (h : l[i]? = some a) :
    l.Perm (a :: l.eraseIdx i) := by
  induction l generalizing i with
  | nil => simp at h
  | cons b l ih =>
    cases i with
    | zero =>
      cases Option.some.inj h
      exact .refl _
    | succ i => exact ((ih h).cons b).trans (.swap a b _)

theorem sublist_of_notMem {α : Type} {a : α} {l early late : List α}
    (h : (a :: l).Sublist (early ++ late)) (ha : a ∉ early) : (a :: l).Sublist late := by
  obtain ⟨l₁, l₂, heq, h₁, h₂⟩ := List.sublist_append_iff.mp h
  cases l₁ with
  | nil => exact heq ▸ h₂
  | cons b l₁ =>
    obtain ⟨rfl, _⟩ := List.cons.inj heq
    exact absurd (h₁.subset List.mem_cons_self) ha

section Modify

variable {α β : Type} {f : α → α} {g : α → β}

/-- What is seen of the entries after a change of one. -/
theorem map_getElem?_modify (as : Array α) (n : Nat) (f : α → α) (g : α → β) (m : Nat) :
    ((as.modify n f)[m]?).map g =
      if m = n then (as[m]?).map fun a => g (f a) else (as[m]?).map g := by
  rw [Array.getElem?_modify]
  by_cases hm : m = n
  · rw [if_pos hm.symm, if_pos hm, Option.map_map]
    rfl
  · rw [if_neg (Ne.symm hm), if_neg hm]

/-- A change that is not seen. -/
theorem map_getElem?_modify_of_eq (as : Array α) (n : Nat) (hf : ∀ a, g (f a) = g a) (m : Nat) :
    ((as.modify n f)[m]?).map g = (as[m]?).map g := by
  rw [map_getElem?_modify]
  simp only [hf, ite_self]

end Modify

theorem nodup_toList (t : Std.TreeSet Nat) : t.toList.Nodup :=
  Std.TreeSet.distinct_toList.imp fun h hc => h (Std.compare_eq_iff_eq.mpr hc)

theorem nodup_keys {β : Type} (t : Std.TreeMap Nat β) : t.keys.Nodup :=
  Std.TreeMap.distinct_keys.imp fun h hc => h (Std.compare_eq_iff_eq.mpr hc)

/-- What is added to a set is missing from what is left without the set. -/
theorem filter_insert (t : Std.TreeSet Nat) (i : Nat) {l : List Nat} (hl : l.Nodup) :
    (l.filter fun j => !(t.insert i).contains j) =
      (l.filter fun j => !t.contains j).erase i := by
  rw [(hl.filter _).erase_eq_filter, List.filter_filter]
  apply List.filter_congr
  intro j _
  by_cases hj : j = i
  · simp [hj]
  · have hc : (compare i j == .eq) = false :=
      beq_eq_false_iff_ne.mpr fun h => hj (Std.compare_eq_iff_eq.mp h).symm
    simp [hj, hc]

/-- A set is as large as a list of its members that repeats none. -/
theorem size_eq_length {t : Std.TreeSet Nat} {l : List Nat} (hl : l.Nodup)
    (h : ∀ i, i ∈ t ↔ i ∈ l) : t.size = l.length := by
  have hperm : t.toList.Perm l :=
    (List.perm_ext_iff_of_nodup (nodup_toList t) hl).mpr fun i => by
      rw [Std.TreeSet.mem_toList, h]
  rw [← Std.TreeSet.length_toList, hperm.length_eq]

end Courier
