import Courier.Proofs.Lists
import Courier.Proofs.Net.IpText
import Courier.Resolver
import Mathlib.Data.List.Induction

/-!
What a resolver keeps of the hosts that it was asked for. Main statements: a host that is an
address is never taken for another one, whatever was looked up before, and of the other family a
restricted resolver knows exactly the addresses that it was asked for as such. An answer is never
changed by what is asked after it.
-/

namespace Courier.Resolver

/-- A host to be resolved for a port, and what the lookups of that moment find. -/
structure Query where
  host : String
  port : UInt16
  lookup : String → Except NetError (List Ip)

def ask (r : Resolver) (q : Query) : Resolution := r.resolve q.host q.lookup

/-- The address that a query is answered with. -/
def answer (r : Resolver) (q : Query) : Except ResolveError SocketAddr :=
  (r.ask q).result.map fun ip => ⟨ip, q.port, 0⟩

/-- A resolver that was asked some queries, one after the other. -/
def after (r : Resolver) (queries : List Query) : Resolver :=
  queries.foldl (fun r q => (r.ask q).resolver) r

section

variable {r : Resolver} {q : Query} {queries : List Query} {ip : Ip} {key : String}

theorem after_concat (r : Resolver) (queries : List Query) (q : Query) :
    r.after (queries ++ [q]) = ((r.after queries).ask q).resolver := by
  rw [after, List.foldl_append]
  rfl

/-! ## One query -/

theorem cached_remember (r : Resolver) (host : String) (ip : Ip) (key : String) :
    (r.remember host ip).cached key =
      if key = host ∨ key = ip.text then some ip else r.cached key := by
  have hput (l : List (String × Ip)) (k : String) :
      ((k, ip) :: l.filter (·.1 ≠ k)).lookup key = if key = k then some ip else l.lookup key := by
    by_cases hk : key = k
    · simp [hk]
    · have hne : (key == k) = false := beq_eq_false_iff_ne.mpr hk
      rw [List.lookup_cons, hne, if_neg hk]
      exact (lookup_filter_key l (fun x => decide (x ≠ k)) key).trans
        (if_pos (decide_eq_true hk))
  unfold cached remember
  dsimp only
  rw [hput, hput]
  by_cases htext : key = ip.text <;> by_cases hhost : key = host <;> simp [htext, hhost]

theorem answer_eq_ok_iff {dest : SocketAddr} :
    r.answer q = .ok dest ↔ ∃ ip, (r.ask q).result = .ok ip ∧ dest = ⟨ip, q.port, 0⟩ := by
  unfold answer
  cases (r.ask q).result with
  | error e => exact iff_of_false nofun fun ⟨_, h, _⟩ => nomatch h
  | ok ip => simp [Except.map, eq_comm]

/-- Everything that a query can come to. -/
inductive Asks (r : Resolver) (q : Query) : Resolution → Prop
  | known (ip : Ip) (cached : r.cached q.host = some ip) : Asks r q ⟨.ok ip, r, false⟩
  | literal (ip : Ip) (unknown : r.cached q.host = none) (reads : Ip.ofText? q.host = some ip) :
      Asks r q ⟨.ok ip, r.remember q.host ip, false⟩
  | found (ip : Ip) (unknown : r.cached q.host = none) (name : Ip.ofText? q.host = none)
      (usable : r.family.all (ip.family == ·) = true) :
      Asks r q ⟨.ok ip, r.remember q.host ip, true⟩
  | failed (e : ResolveError) (unknown : r.cached q.host = none)
      (name : Ip.ofText? q.host = none) : Asks r q ⟨.error e, r, true⟩

theorem usable_of_usable? {found : List Ip} (h : r.usable? found = some ip) :
    r.family.all (ip.family == ·) = true := by
  unfold usable? at h
  have hip := List.find?_some h
  exact hip

theorem asks_ask (r : Resolver) (q : Query) : r.Asks q (r.ask q) := by
  unfold ask resolve
  cases hcached : r.cached q.host with
  | some ip => exact .known ip hcached
  | none =>
    cases hreads : Ip.ofText? q.host with
    | some ip => exact .literal ip hcached hreads
    | none =>
      dsimp only
      cases q.lookup q.host with
      | error e => exact .failed _ hcached hreads
      | ok found =>
        dsimp only
        cases husable : r.usable? found with
        | none => exact .failed _ hcached hreads
        | some ip => exact .found ip hcached hreads (usable_of_usable? husable)

theorem family_ask (r : Resolver) (q : Query) : (r.ask q).resolver.family = r.family := by
  have h := r.asks_ask q
  generalize r.ask q = x at h
  cases h <;> rfl

theorem family_after (r : Resolver) (queries : List Query) :
    (r.after queries).family = r.family := by
  induction queries using List.reverseRecOn with
  | nil => rfl
  | append_singleton queries q ih => rw [after_concat, family_ask, ih]

/-! ## Hosts that are addresses -/

/-- The text of an address is only ever kept for that address. -/
def Coherent (r : Resolver) : Prop :=
  ∀ key ip, r.cached key = some ip → ∀ ip', Ip.ofText? key = some ip' → ip' = ip

theorem Coherent.remember (h : r.Coherent) {host : String}
    (hhost : ∀ ip', Ip.ofText? host = some ip' → ip' = ip) : (r.remember host ip).Coherent := by
  intro key ip₁ hcached ip' hreads
  rw [cached_remember] at hcached
  split at hcached
  · next hkey =>
    obtain rfl := Option.some.inj hcached
    rcases hkey with rfl | rfl
    · exact hhost ip' hreads
    · rw [Ip.ofText?_text] at hreads
      exact (Option.some.inj hreads).symm
  · exact h key ip₁ hcached ip' hreads

theorem Coherent.ask (h : r.Coherent) (q : Query) : (r.ask q).resolver.Coherent := by
  have hq := r.asks_ask q
  generalize r.ask q = x at hq
  cases hq with
  | known | failed => exact h
  | literal ip _ reads =>
    exact h.remember fun ip' hreads => Option.some.inj (hreads.symm.trans reads)
  | found ip _ name =>
    refine h.remember fun ip' hreads => ?_
    rw [name] at hreads
    cases hreads

theorem coherent_after (family : Option Ip.Family) (queries : List Query) :
    (after { family } queries).Coherent := by
  induction queries using List.reverseRecOn with
  | nil => exact fun key ip hcached => nomatch hcached
  | append_singleton queries q ih =>
    rw [after_concat]
    exact ih.ask q

/-- A host that is an address is resolved as itself, and not looked up. -/
theorem Coherent.ask_literal (h : r.Coherent) (hreads : Ip.ofText? q.host = some ip) :
    (r.ask q).result = .ok ip ∧ (r.ask q).lookedUp = false := by
  have hq := r.asks_ask q
  generalize r.ask q = x at hq
  cases hq with
  | known ip' cached => exact ⟨congrArg Except.ok (h _ _ cached _ hreads).symm, rfl⟩
  | literal ip' _ reads =>
    exact ⟨congrArg Except.ok (Option.some.inj (reads.symm.trans hreads)), rfl⟩
  | found _ _ name | failed _ _ name =>
    rw [name] at hreads
    cases hreads

/-! ## Restricted resolvers -/

/-- An address that was asked for as such, and the texts that it is kept under for that. -/
def Entered (queries : List Query) (key : String) (ip : Ip) : Prop :=
  ∃ q ∈ queries, Ip.ofText? q.host = some ip ∧ (key = q.host ∨ key = ip.text)

theorem Entered.concat (h : Entered queries key ip) (q : Query) :
    Entered (queries ++ [q]) key ip := by
  obtain ⟨q', hq', h⟩ := h
  exact ⟨q', List.mem_append_left _ hq', h⟩

theorem entered_concat_iff : Entered (queries ++ [q]) key ip ↔
    Entered queries key ip ∨ Ip.ofText? q.host = some ip ∧ (key = q.host ∨ key = ip.text) := by
  constructor
  · rintro ⟨q', hq', h⟩
    rcases List.mem_append.mp hq' with hold | hnew
    · exact .inl ⟨q', hold, h⟩
    · obtain rfl := List.mem_singleton.mp hnew
      exact .inr h
  · rintro (h | h)
    · exact h.concat q
    · exact ⟨q, List.mem_append_right _ List.mem_cons_self, h⟩

theorem Entered.reads (h : Entered queries key ip) : Ip.ofText? key = some ip := by
  obtain ⟨q, _, hreads, rfl | rfl⟩ := h
  · exact hreads
  · exact ip.ofText?_text

/-- The addresses of the other family that are kept are those that were asked for as such. -/
def KeepsEntered (family : Ip.Family) (queries : List Query) (r : Resolver) : Prop :=
  ∀ key ip, ip.family ≠ family → (r.cached key = some ip ↔ Entered queries key ip)

/-- A host that is kept for another address changes nothing. -/
theorem KeepsEntered.remember {family : Ip.Family} (h : KeepsEntered family queries r)
    (hip : ip.family ≠ family) {host : String} {other : Ip} (hother : other ≠ ip)
    (hhost : Ip.ofText? host ≠ some ip) :
    (r.remember host other).cached key = some ip ↔ Entered queries key ip := by
  rw [cached_remember]
  split
  · next hkey =>
    refine iff_of_false (fun heq => hother (Option.some.inj heq)) fun hentered => ?_
    have hreads := hentered.reads
    rcases hkey with rfl | rfl
    · exact hhost hreads
    · exact hother (Option.some.inj (other.ofText?_text.symm.trans hreads))
  · exact h key ip hip

theorem KeepsEntered.ask {family : Ip.Family} (h : KeepsEntered family queries r)
    (hr : r.Coherent) (hfamily : r.family = some family) (q : Query) :
    KeepsEntered family (queries ++ [q]) (r.ask q).resolver := by
  intro key ip hip
  have hq := r.asks_ask q
  rw [entered_concat_iff]
  generalize r.ask q = x at hq
  cases hq with
  | known ip₀ cached =>
    rw [h key ip hip]
    refine (or_iff_left_of_imp fun ⟨hreads, hkey⟩ => ?_).symm
    -- the host was kept for this address, so that it was asked for before
    obtain rfl := hr _ _ cached _ hreads
    have hentered := (h q.host ip hip).mp cached
    rcases hkey with rfl | rfl
    · exact hentered
    · obtain ⟨q', hq', hreads', _⟩ := hentered
      exact ⟨q', hq', hreads', .inr rfl⟩
  | literal ip₀ unknown reads =>
    by_cases heq : ip₀ = ip
    · subst heq
      rw [cached_remember]
      split
      · next hkey => exact iff_of_true rfl (.inr ⟨reads, hkey⟩)
      · next hkey => simp [h key ip₀ hip, hkey]
    · have hhost : Ip.ofText? q.host ≠ some ip := fun hreads =>
        heq (Option.some.inj (reads.symm.trans hreads))
      rw [h.remember hip heq hhost]
      simp [hhost]
  | found ip₀ unknown name usable =>
    have hne : ip₀ ≠ ip := by
      rintro rfl
      rw [hfamily] at usable
      exact hip (beq_iff_eq.mp usable)
    rw [h.remember hip hne (by simp [name])]
    simp [name]
  | failed e unknown name => simpa [name] using h key ip hip

theorem keepsEntered_after (family : Ip.Family) (queries : List Query) :
    KeepsEntered family queries (after { family := some family } queries) := by
  induction queries using List.reverseRecOn with
  | nil => exact fun key ip _ => iff_of_false nofun fun ⟨_, hq, _⟩ => nomatch hq
  | append_singleton queries q ih =>
    rw [after_concat]
    exact ih.ask (coherent_after _ queries) (family_after _ queries) q

/-- An address of the other family is an answer just to a host that is this address. -/
theorem ask_eq_ok_iff (family : Ip.Family) (queries : List Query) (q : Query)
    (hip : ip.family ≠ family) :
    ((after { family := some family } queries).ask q).result = .ok ip ↔
      Ip.ofText? q.host = some ip := by
  have hr := coherent_after (some family) queries
  refine ⟨fun hresult => ?_, fun hreads => (hr.ask_literal hreads).1⟩
  have hq := (after { family := some family } queries).asks_ask q
  generalize (after { family := some family } queries).ask q = x at hq hresult
  cases hq with
  | known ip₀ cached =>
    cases hresult
    exact ((keepsEntered_after family queries q.host ip hip).mp cached).reads
  | literal ip₀ unknown reads =>
    cases hresult
    exact reads
  | found ip₀ unknown name usable =>
    cases hresult
    rw [family_after] at usable
    exact absurd (beq_iff_eq.mp usable) hip
  | failed => cases hresult

/-! ## Answers that stay -/

theorem ask_of_cached (h : r.cached q.host = some ip) : r.ask q = ⟨.ok ip, r, false⟩ := by
  rw [ask, resolve, h]

theorem resolver_of_error {e : ResolveError} (h : (r.ask q).result = .error e) :
    (r.ask q).resolver = r := by
  have hq := r.asks_ask q
  generalize r.ask q = x at hq h
  cases hq with
  | failed => rfl
  | known | literal | found => cases h

/-- What was kept stays when another host is: only the text of an address can be written again,
and it stands for the address that it is. -/
theorem Coherent.cached_of_unknown (h : r.Coherent) (hkey : r.cached key = some ip) {host : String}
    (unknown : r.cached host = none) (other : Ip) :
    (r.remember host other).cached key = some ip := by
  rw [cached_remember]
  split
  · next hwritten =>
    rcases hwritten with rfl | rfl
    · cases unknown.symm.trans hkey
    · exact congrArg some (h _ _ hkey _ other.ofText?_text)
  · exact hkey

theorem Coherent.cached_ask (h : r.Coherent) (hkey : r.cached key = some ip) (q : Query) :
    (r.ask q).resolver.cached key = some ip := by
  have hq := r.asks_ask q
  generalize r.ask q = x at hq
  cases hq with
  | known | failed => exact hkey
  | literal other unknown | found other unknown => exact h.cached_of_unknown hkey unknown other

theorem cached_after_append {family : Option Ip.Family} {early : List Query}
    (hkey : (after { family } early).cached key = some ip) (late : List Query) :
    (after { family } (early ++ late)).cached key = some ip := by
  induction late using List.reverseRecOn with
  | nil => rwa [List.append_nil]
  | append_singleton late q ih =>
    rw [← List.append_assoc, after_concat]
    exact (coherent_after family (early ++ late)).cached_ask ih q

/-- An address that is kept for some host is kept for its own text too. -/
def SelfKept (r : Resolver) : Prop :=
  ∀ key ip, r.cached key = some ip → r.cached ip.text = some ip

theorem SelfKept.remember (h : r.SelfKept) (hr : r.Coherent) {host : String}
    (unknown : r.cached host = none) (ip : Ip) : (r.remember host ip).SelfKept := by
  intro key ip' hcached
  rw [cached_remember] at hcached
  split at hcached
  · cases hcached
    rw [cached_remember, if_pos (.inr rfl)]
  · exact hr.cached_of_unknown (h key ip' hcached) unknown ip

theorem SelfKept.ask (h : r.SelfKept) (hr : r.Coherent) (q : Query) :
    (r.ask q).resolver.SelfKept := by
  have hq := r.asks_ask q
  generalize r.ask q = x at hq
  cases hq with
  | known | failed => exact h
  | literal ip unknown | found ip unknown => exact h.remember hr unknown ip

theorem selfKept_after (family : Option Ip.Family) (queries : List Query) :
    (after { family } queries).SelfKept := by
  induction queries using List.reverseRecOn with
  | nil => exact fun key ip hcached => nomatch hcached
  | append_singleton queries q ih =>
    rw [after_concat]
    exact ih.ask (coherent_after family queries) q

/-- The address of an answer is kept for the host and for its own text. -/
theorem SelfKept.cached_of_ok (h : r.SelfKept) (hresult : (r.ask q).result = .ok ip) :
    (r.ask q).resolver.cached q.host = some ip ∧ (r.ask q).resolver.cached ip.text = some ip := by
  have hq := r.asks_ask q
  generalize r.ask q = x at hq hresult
  cases hq with
  | known _ cached =>
    cases hresult
    exact ⟨cached, h _ _ cached⟩
  | literal | found =>
    cases hresult
    simp [cached_remember]
  | failed => cases hresult

/-- The host of an answer, and the text of the address, are known from then on. -/
theorem ask_of_answered {family : Option Ip.Family} {early : List Query} {again : Query}
    (hresult : ((after { family } early).ask q).result = .ok ip) (late : List Query)
    (hagain : again.host = q.host ∨ again.host = ip.text) :
    (after { family } (early ++ q :: late)).ask again =
      ⟨.ok ip, after { family } (early ++ q :: late), false⟩ := by
  obtain ⟨hhost, htext⟩ := (selfKept_after family early).cached_of_ok hresult
  rw [← after_concat] at hhost htext
  have hkept : (after { family } (early ++ [q])).cached again.host = some ip := by
    rcases hagain with heq | heq
    · exact heq ▸ hhost
    · exact heq ▸ htext
  rw [List.append_cons]
  exact ask_of_cached (cached_after_append hkept late)

/-- A resolver that was asked any queries: an address is never kept for another one, what it once
answered it answers again to every later query, without a lookup, an address needs none either,
and a query that fails leaves nothing behind. -/
theorem steady_after (family : Option Ip.Family) (queries : List Query) :
    let r := after { family } queries
    (∀ key ip, r.cached key = some ip → ∀ ip', Ip.ofText? key = some ip' → ip' = ip) ∧
    (∀ early q late dest, queries = early ++ q :: late →
      (after { family } early).answer q = .ok dest →
      ∀ again : Query, again.host = q.host ∨ again.host = dest.ip.text →
        r.answer again = .ok ⟨dest.ip, again.port, 0⟩ ∧ (r.ask again).lookedUp = false) ∧
    (∀ q ip, Ip.ofText? q.host = some ip →
      r.answer q = .ok ⟨ip, q.port, 0⟩ ∧ (r.ask q).lookedUp = false) ∧
    ∀ q e, r.answer q = .error e → (r.ask q).resolver = r := by
  intro r
  have hr : r.Coherent := coherent_after family queries
  refine ⟨hr, fun early q late dest hsplit hanswer again hagain => ?_, fun q ip hreads => ?_,
    fun q e hanswer => ?_⟩
  · obtain ⟨ip, hresult, rfl⟩ := answer_eq_ok_iff.mp hanswer
    have hask : r.ask again = ⟨.ok ip, r, false⟩ := by
      subst hsplit
      exact ask_of_answered hresult late hagain
    rw [answer, hask]
    exact ⟨rfl, rfl⟩
  · obtain ⟨hresult, hlookedUp⟩ := hr.ask_literal hreads
    exact ⟨answer_eq_ok_iff.mpr ⟨ip, hresult, rfl⟩, hlookedUp⟩
  · cases hresult : (r.ask q).result with
    | error e' => exact resolver_of_error hresult
    | ok ip =>
      rw [answer, hresult] at hanswer
      cases hanswer

def localhost : Query := ⟨"localhost", 80, fun _ => .ok [.loopback .v6, .loopback .v4]⟩

/-- Another name of this address, for which the text of the address is written again. -/
def otherName : Query := ⟨"self", 81, fun _ => .ok [.loopback .v4]⟩

theorem steady_twoNames :
    let r := after { family := some .v4 } [localhost, otherName]
    let again : Query := ⟨"127.0.0.1", 82, fun _ => .error .hostNotFound⟩
    (after { family := some .v4 } []).answer localhost = .ok ⟨.loopback .v4, 80, 0⟩ ∧
      r.answer again = .ok ⟨.loopback .v4, 82, 0⟩ ∧ (r.ask again).lookedUp = false := by
  intro r again
  have hanswer : (after { family := some .v4 } []).answer localhost =
      .ok ⟨.loopback .v4, 80, 0⟩ := by decide +kernel
  obtain ⟨_, hagain, _⟩ := steady_after (some .v4) [localhost, otherName]
  exact ⟨hanswer, hagain [] localhost [otherName] _ rfl hanswer again (.inr rfl)⟩

end

end Courier.Resolver
