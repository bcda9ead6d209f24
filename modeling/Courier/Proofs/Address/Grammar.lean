import Courier.Proofs.Address
import Courier.Proofs.Text.Numeral

/-!
Which texts are addresses, and what their options are. Main statement: a text is read as an
address exactly if it is `scheme://host:port` up to its first comma, the last setting of an option
counts, and the options have no part in the endpoint.
-/

namespace Courier

/-- The options after some settings, one after the other. -/
def Options.setAll (o : Options) (settings : List (String × String)) : Options :=
  settings.foldl (fun o x => o.set x.1 x.2) o

namespace Address

/-- A host as it is written, and without the brackets around it. -/
inductive Unwraps : List Char → List Char → Prop
  | bracketed (host : List Char) : Unwraps ('[' :: (host ++ [']'])) host
  | bare {host : List Char} : (∀ inner, host ≠ '[' :: (inner ++ [']'])) → Unwraps host host

/-- The endpoints that texts of the form `scheme://host:port` name. -/
inductive Names : List Char → Endpoint → Prop
  | mk (p : Protocol) {written host port : List Char} {n : Nat} (unwraps : Unwraps written host)
      (nonempty : host ≠ []) (last : ':' ∉ port) (numeral : Text.Numeral 65535 port n) :
      Names (p.text.toList ++ "://".toList ++ written ++ ':' :: port)
        ⟨p, String.ofList host, UInt16.ofNat n⟩

/-- The setting that a segment makes: a key and, after the first equals sign, a value. -/
def setting? (segment : List Char) : Option (String × String) :=
  if segment = [] then none
  else
    let key := segment.takeWhile (· ≠ '=')
    let value := (segment.dropWhile (· ≠ '=')).tail
    some (String.ofList (Text.trim key), String.ofList (Text.trim value))

section

variable {main written host : List Char} {p : Protocol} {port : UInt16} {e : Endpoint}

/-! ## The endpoint -/

theorem unwraps_unbracket (written : List Char) : Unwraps written (unbracket written) := by
  unfold unbracket
  split
  · next rest =>
    split
    · next hlast =>
      obtain ⟨inner, hinner⟩ := List.getLast?_eq_some_iff.mp hlast
      rw [hinner, List.dropLast_concat]
      exact .bracketed inner
    · next hlast =>
      refine .bare fun inner hinner => hlast ?_
      rw [(List.cons.inj hinner).2, List.getLast?_concat]
  · next hopen => exact .bare fun inner hinner => hopen _ hinner

theorem Unwraps.unbracket_eq (h : Unwraps written host) : unbracket written = host := by
  cases h with
  | bracketed => exact unbracket_bracket host
  | bare hplain =>
    have hunwraps := unwraps_unbracket written
    generalize unbracket written = host at hunwraps
    cases hunwraps with
    | bracketed => exact absurd rfl (hplain _)
    | bare => rfl

theorem Names.ofMain?_eq (h : Names main e) :
    ofMain? main = some (e.protocol, e.address.toList, e.port) := by
  cases h with
  | @mk p written host port n unwraps nonempty last numeral =>
    have hmain := ofMain?_append p written last
    rw [unwraps.unbracket_eq, if_neg nonempty, Text.natural?_eq_some_iff.mpr numeral,
      Option.map_some] at hmain
    simpa using hmain

/-- The separators stand where the parts are cut. -/
theorem exists_of_ofMain? (h : ofMain? main = some (p, host, port)) :
    ∃ written digits, ':' ∉ digits ∧
      main = p.text.toList ++ ':' :: '/' :: '/' :: (written ++ ':' :: digits) := by
  unfold ofMain? at h
  obtain ⟨⟨scheme, rest⟩, hfirst, hrest⟩ := Option.bind_eq_some_iff.mp h
  obtain ⟨⟨slashed, digits⟩, hlast, hparts⟩ := Option.bind_eq_some_iff.mp hrest
  dsimp only at hparts
  obtain ⟨_, hmain⟩ := Text.cutFirst_eq_some_iff.mp hfirst
  obtain ⟨hcolon, hslashed⟩ := Text.cutLast_eq_some_iff.mp hlast
  split at hparts
  · next written =>
    obtain ⟨_, _, hguard⟩ := Option.bind_eq_some_iff.mp hparts
    obtain ⟨_, _, hport⟩ := Option.bind_eq_some_iff.mp hguard
    obtain ⟨_, _, hprotocol⟩ := Option.bind_eq_some_iff.mp hport
    obtain ⟨_, hscheme, hresult⟩ := Option.bind_eq_some_iff.mp hprotocol
    obtain ⟨rfl, _⟩ := Prod.mk.inj (Option.some.inj hresult)
    refine ⟨written, digits, hcolon, ?_⟩
    rw [hmain, show rest = _ from hslashed, Protocol.ofChars?_eq_some_iff.mp hscheme]
    rfl
  · cases hparts

theorem names_of_ofMain? (h : ofMain? main = some (p, host, port)) :
    Names main ⟨p, String.ofList host, port⟩ := by
  obtain ⟨written, digits, hcolon, rfl⟩ := exists_of_ofMain? h
  rw [ofMain?_append p written hcolon] at h
  split at h
  · cases h
  · next hne =>
    obtain ⟨n, hnumeral, hresult⟩ := Option.map_eq_some_iff.mp h
    obtain ⟨_, rfl, rfl⟩ : p = p ∧ unbracket written = host ∧ UInt16.ofNat n = port := by
      simpa using hresult
    have hnames := Names.mk p (unwraps_unbracket written) hne hcolon
      (Text.natural?_eq_some_iff.mp hnumeral)
    simpa using hnames

/-- A text names one endpoint at most. -/
theorem names_iff (h : ofMain? main = some (p, host, port)) :
    Names main e ↔ e = ⟨p, String.ofList host, port⟩ := by
  constructor
  · intro hnames
    obtain ⟨rfl, rfl, rfl⟩ : e.protocol = p ∧ e.address.toList = host ∧ e.port = port := by
      simpa using hnames.ofMain?_eq.symm.trans h
    rw [String.ofList_toList]
  · rintro rfl
    exact names_of_ofMain? h

/-! ## The options -/

theorem applySegment_eq (o : Options) (segment : List Char) :
    applySegment o segment =
      match setting? segment with
      | some (key, value) => o.set key value
      | none => o := by
  have hcut := Text.getD_cutFirst '=' segment
  unfold applySegment setting?
  split
  · rfl
  · dsimp only
    cases hfirst : Text.cutFirst '=' segment with
    | some x =>
      rw [hfirst, Option.getD_some] at hcut
      rw [hcut]
    | none =>
      rw [hfirst, Option.getD_none] at hcut
      obtain ⟨hkey, hvalue⟩ := Prod.mk.inj hcut
      rw [← hkey, ← hvalue]
      rfl

/-- Of the settings of a key the last one counts. -/
theorem get?_setAll (o : Options) (settings : List (String × String)) (key : String) :
    (o.setAll settings).get? key = (settings.reverse.lookup key).or (o.get? key) := by
  induction settings generalizing o with
  | nil => rfl
  | cons x settings ih =>
    have hall : o.setAll (x :: settings) = (o.set x.1 x.2).setAll settings := rfl
    have hone : (if key = x.1 then some x.2 else o.get? key) =
        ([x].lookup key).or (o.get? key) := by
      obtain ⟨k, value⟩ := x
      by_cases hk : key = k
      · simp [hk]
      · simp [hk, List.lookup_cons, beq_eq_false_iff_ne.mpr hk]
    rw [hall, ih, Options.get?_set, hone, List.reverse_cons, List.lookup_append, Option.or_assoc]

theorem foldl_applySegment (o : Options) (segments : List (List Char)) :
    segments.foldl applySegment o = o.setAll (segments.filterMap setting?) := by
  rw [Options.setAll, List.foldl_filterMap]
  congr 1
  funext o segment
  rw [applySegment_eq]
  cases setting? segment <;> rfl

/-! ## The address -/

theorem parse_eq (text : String) (defaults : List (String × String)) :
    parse text defaults =
      match ofMain? (text.toList.takeWhile (· ≠ ',')) with
      | none => .error (.invalid text)
      | some (p, host, port) =>
        .ok ⟨p, String.ofList host, port, (Options.setAll ⟨[]⟩ defaults).setAll
          ((text.toList.splitOn ',').tail.filterMap setting?)⟩ := by
  unfold parse
  dsimp only
  rw [Text.headD_segments, Text.segments_eq_splitOn, foldl_applySegment]
  rfl

theorem exists_of_parse_ok {text : String} {defaults : List (String × String)} {a : Address}
    (h : parse text defaults = .ok a) :
    ofMain? (text.toList.takeWhile (· ≠ ',')) = some (a.protocol, a.host.toList, a.port) ∧
      ∀ key, a.options.get? key =
        (((text.toList.splitOn ',').tail.filterMap setting?).reverse.lookup key).or
          (defaults.reverse.lookup key) := by
  rw [parse_eq] at h
  split at h
  · cases h
  · next p host port hmain =>
    cases h
    refine ⟨by simpa using hmain, fun key => ?_⟩
    rw [get?_setAll, get?_setAll]
    exact congrArg _ Option.or_none

/-- Which texts are addresses, and what is read from them. -/
theorem grammatical_parse (text : String) (defaults : List (String × String)) :
    let main := text.toList.takeWhile (· ≠ ',')
    let settings := (text.toList.splitOn ',').tail.filterMap setting?
    ((∃ a, parse text defaults = .ok a) ↔ ∃ e, Names main e) ∧
      (parse text defaults = .error (.invalid text) ↔ ¬ ∃ e, Names main e) ∧
      ∀ a, parse text defaults = .ok a →
        (∀ e, Names main e ↔ e = a.endpoint) ∧
        (∀ key, a.options.get? key =
          (settings.reverse.lookup key).or (defaults.reverse.lookup key)) ∧
        ∀ (text' : String) (defaults' : List (String × String)),
          text'.toList.takeWhile (· ≠ ',') = main →
          ∃ a', parse text' defaults' = .ok a' ∧ a'.endpoint = a.endpoint := by
  intro main settings
  have hparse := parse_eq text defaults
  cases hmain : ofMain? main with
  | none =>
    have hnone : ¬ ∃ e, Names main e := by
      rintro ⟨e, hnames⟩
      cases hmain.symm.trans hnames.ofMain?_eq
    rw [hmain] at hparse
    rw [hparse]
    refine ⟨iff_of_false (by rintro ⟨a, ha⟩; cases ha) hnone, iff_of_true rfl hnone, ?_⟩
    intro a ha
    cases ha
  | some x =>
    obtain ⟨p, host, port⟩ := x
    have hsome : ∃ e, Names main e := ⟨_, names_of_ofMain? hmain⟩
    rw [hmain] at hparse
    refine ⟨iff_of_true ⟨_, hparse⟩ hsome, ?_, ?_⟩
    · rw [hparse]
      exact iff_of_false (by simp) (not_not.mpr hsome)
    · intro a ha
      obtain ⟨hread, hoptions⟩ := exists_of_parse_ok ha
      refine ⟨fun e => ?_, hoptions, fun text' defaults' hsame => ?_⟩
      · rw [names_iff hread, String.ofList_toList]
        rfl
      · have hparse' := parse_eq text' defaults'
        rw [hsame, hread] at hparse'
        dsimp only at hparse'
        rw [String.ofList_toList] at hparse'
        exact ⟨_, hparse', rfl⟩

example : (parse "udp://[::1]:+080,k=v, k = w= ,,bnd" [("k", "d")]).toOption.map (fun a =>
    (a.endpoint, a.options.get? "k", a.options.get? "bnd")) =
      some (⟨.udp, "::1", 80⟩, some "w=", some "") := by
  decide

end

end Address

end Courier
