import Courier.Proofs.Address.Grammar

/-!
Endpoints whose text is read as themselves. Main statement: these are exactly the endpoints with an
address that is not empty, has no comma, and has no brackets around it unless there is a colon.
-/

namespace Courier.Address

section

variable {main written host cs : List Char} {e : Endpoint}

theorem Unwraps.mem (h : Unwraps written host) {c : Char} (hc : c ∈ host) : c ∈ written := by
  cases h with
  | bracketed => exact List.mem_cons_of_mem _ (List.mem_append_left _ hc)
  | bare => exact hc

theorem Names.mem (h : Names main e) {c : Char} (hc : c ∈ e.address.toList) : c ∈ main := by
  cases h with
  | mk p unwraps =>
    rw [String.toList_ofList] at hc
    exact List.mem_append_left _ (List.mem_append_right _ (unwraps.mem hc))

/-- What is read never has a comma. -/
theorem comma_notMem_of_parse {text : String} {defaults : List (String × String)} {a : Address}
    (h : parse text defaults = .ok a) : ',' ∉ a.host.toList := fun hmem =>
  Text.notMem_takeWhile_ne ',' text.toList
    ((names_of_ofMain? (exists_of_parse_ok h).1).mem (by rwa [String.toList_ofList]))

/-- A host that is read as itself has no brackets to be taken off. -/
theorem unbracket_eq_self_iff :
    unbracket cs = cs ↔ ¬ (2 ≤ cs.length ∧ cs.head? = some '[' ∧ cs.getLast? = some ']') := by
  constructor
  · rintro hself ⟨_, hhead, hlast⟩
    obtain ⟨front, rfl⟩ := List.getLast?_eq_some_iff.mp hlast
    cases front with
    | nil => cases hhead
    | cons c inner =>
      cases Option.some.inj hhead
      rw [List.cons_append, unbracket_bracket] at hself
      have hlength := congrArg List.length hself
      rw [List.length_cons, List.length_append] at hlength
      omega
  · intro hplain
    have hunwraps := unwraps_unbracket cs
    generalize unbracket cs = host at hunwraps
    cases hunwraps with
    | bracketed =>
      have hlast : (('[' :: host) ++ [']']).getLast? = some ']' := List.getLast?_concat
      exact absurd ⟨by simp, rfl, hlast⟩ hplain
    | bare => rfl

theorem unbracket_hostChars_eq_iff :
    unbracket e.hostChars = e.address.toList ↔
      ':' ∈ e.address.toList ∨ unbracket e.address.toList = e.address.toList := by
  unfold Endpoint.hostChars
  split
  · next hcolon => exact iff_of_true (unbracket_bracket _) (.inl hcolon)
  · next hcolon => exact (or_iff_right hcolon).symm

/-- Exactly which endpoints are read back from their text. -/
theorem readable_text (e : Endpoint) :
    (∃ a, parse e.text [] = .ok a ∧ a.endpoint = e) ↔
      e.address ≠ "" ∧ ',' ∉ e.address.toList ∧
        ¬ (2 ≤ e.address.toList.length ∧ e.address.toList.head? = some '[' ∧
          e.address.toList.getLast? = some ']' ∧ ':' ∉ e.address.toList) := by
  have hplain : unbracket e.hostChars = e.address.toList ↔
      ¬ (2 ≤ e.address.toList.length ∧ e.address.toList.head? = some '[' ∧
        e.address.toList.getLast? = some ']' ∧ ':' ∉ e.address.toList) := by
    rw [unbracket_hostChars_eq_iff, unbracket_eq_self_iff]
    tauto
  rw [← hplain]
  constructor
  · rintro ⟨a, hparse, rfl⟩
    have hcomma : ',' ∉ a.endpoint.address.toList := comma_notMem_of_parse hparse
    rw [parse_text_of_notMem hcomma] at hparse
    split at hparse
    · cases hparse
    · next hne =>
      have hhost : String.ofList (unbracket a.endpoint.hostChars) = a.endpoint.address :=
        congrArg host (Except.ok.inj hparse)
      have hsame : unbracket a.endpoint.hostChars = a.endpoint.address.toList := by
        rw [← hhost, String.toList_ofList]
      exact ⟨mt String.toList_eq_nil_iff.mpr (hsame ▸ hne), hcomma, hsame⟩
  · rintro ⟨hne, hcomma, hsame⟩
    refine ⟨⟨e.protocol, e.address, e.port, ⟨[]⟩⟩, ?_, rfl⟩
    rw [parse_text_of_notMem hcomma, hsame, if_neg (mt String.toList_eq_nil_iff.mp hne),
      String.ofList_toList]

end

end Courier.Address
