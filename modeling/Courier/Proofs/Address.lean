import Courier.Address
import Courier.Proofs.Net.IpText
import Courier.Proofs.Text.Cut

/-!
Endpoints that are written out and read back as addresses. Main statement: an endpoint whose
address has no comma and no brackets is read as itself, without options.
-/

namespace Courier

theorem Protocol.ofChars?_text (p : Protocol) : ofChars? p.text.toList = some p := by
  cases p <;> decide

theorem Protocol.ofChars?_eq_some_iff {cs : List Char} {p : Protocol} :
    ofChars? cs = some p ↔ cs = p.text.toList := by
  constructor
  · intro h
    unfold ofChars? at h
    split at h
    · next htcp =>
      cases h
      rw [htcp]
      decide
    · split at h
      · next hudp =>
        cases h
        rw [hudp]
        decide
      · cases h
  · rintro rfl
    exact ofChars?_text p

theorem SocketAddr.notMem_portText {c : Char} (hc : Text.digit? 10 c = none) (p : UInt16) :
    c ∉ portText p :=
  Text.not_mem_toDigits (by decide) (by decide) hc

namespace Endpoint

/-- The host as it stands in the text. -/
def hostChars (e : Endpoint) : List Char :=
  if ':' ∈ e.address.toList then '[' :: (e.address.toList ++ [']']) else e.address.toList

theorem toList_hostPort (e : Endpoint) :
    e.hostPort.toList = e.hostChars ++ ':' :: SocketAddr.portText e.port := by
  unfold hostPort hostChars SocketAddr.portText
  split <;> simp

theorem toList_text (e : Endpoint) :
    e.text.toList =
      e.protocol.text.toList ++ ':' :: '/' :: '/' ::
        (e.hostChars ++ ':' :: SocketAddr.portText e.port) := by
  simp [text, toList_hostPort]

end Endpoint

namespace Address

section

variable {p : Protocol} {host : List Char} {e : Endpoint}

theorem unbracket_bracket (host : List Char) : unbracket ('[' :: (host ++ [']'])) = host := by
  simp [unbracket]

theorem unbracket_of_head? (h : host.head? ≠ some '[') : unbracket host = host := by
  unfold unbracket
  split
  · next rest => exact absurd rfl h
  · rfl

/-- What is read from the parts of an address that stand in their places. -/
theorem ofMain?_append (p : Protocol) (host : List Char) {port : List Char} (hport : ':' ∉ port) :
    ofMain? (p.text.toList ++ ':' :: '/' :: '/' :: (host ++ ':' :: port)) =
      if unbracket host = [] then none
      else (Text.natural? 65535 port).map fun n => (p, unbracket host, UInt16.ofNat n) := by
  have hscheme : ':' ∉ p.text.toList := by cases p <;> decide
  have hrest : '/' :: '/' :: (host ++ ':' :: port) = ('/' :: '/' :: host) ++ ':' :: port := rfl
  unfold ofMain? guard
  rw [Text.cutFirst_append hscheme, hrest]
  simp only [Option.bind_eq_bind, Option.bind_some]
  rw [Text.cutLast_append hport]
  simp only [Option.bind_some, Protocol.ofChars?_text]
  by_cases hempty : unbracket host = []
  · rw [if_neg (not_not.mpr hempty), if_pos hempty]
    rfl
  · rw [if_pos hempty, if_neg hempty]
    cases Text.natural? 65535 port <;> rfl

theorem ofMain?_text (p : Protocol) (host : List Char) (port : UInt16) :
    ofMain? (p.text.toList ++ ':' :: '/' :: '/' :: (host ++ ':' :: SocketAddr.portText port)) =
      if unbracket host = [] then none else some (p, unbracket host, port) := by
  have hport : Text.natural? 65535 (SocketAddr.portText port) = some port.toNat :=
    Text.natural?_toDigits (Nat.le_of_lt_succ port.toNat_lt)
  rw [ofMain?_append p host (SocketAddr.notMem_portText rfl port), hport, Option.map_some,
    UInt16.ofNat_toNat]

theorem unbracket_hostChars
    (h : ':' ∈ e.address.toList ∨ e.address.toList.head? ≠ some '[') :
    unbracket e.hostChars = e.address.toList := by
  unfold Endpoint.hostChars
  split
  · exact unbracket_bracket _
  · next hcolon => exact unbracket_of_head? (h.resolve_left hcolon)

theorem comma_notMem_text (h : ',' ∉ e.address.toList) : ',' ∉ e.text.toList := by
  have hscheme : ',' ∉ e.protocol.text.toList := by cases e.protocol <;> decide
  have hport : ',' ∉ SocketAddr.portText e.port := SocketAddr.notMem_portText rfl e.port
  have hhost : ',' ∉ e.hostChars := by
    unfold Endpoint.hostChars
    split <;> simp [h]
  rw [Endpoint.toList_text]
  simp [hscheme, hhost, hport]

/-- Without a comma in it the text of an endpoint has no options. -/
theorem parse_text_of_notMem (hcomma : ',' ∉ e.address.toList) :
    parse e.text [] =
      if unbracket e.hostChars = [] then .error (.invalid e.text)
      else .ok ⟨e.protocol, String.ofList (unbracket e.hostChars), e.port, ⟨[]⟩⟩ := by
  have hmain := ofMain?_text e.protocol e.hostChars e.port
  rw [← Endpoint.toList_text] at hmain
  unfold parse
  dsimp only
  rw [Text.segments_of_notMem (comma_notMem_text hcomma), List.headD_cons, hmain]
  by_cases hempty : unbracket e.hostChars = []
  · rw [if_pos hempty, if_pos hempty]
  · rw [if_neg hempty, if_neg hempty]
    rfl

/-- Brackets are needed around an address with colons, and taken off again. -/
theorem parse_text (hcomma : ',' ∉ e.address.toList) (hne : e.address ≠ "")
    (hbracket : ':' ∈ e.address.toList ∨ e.address.toList.head? ≠ some '[') :
    parse e.text [] = .ok ⟨e.protocol, e.address, e.port, ⟨[]⟩⟩ := by
  rw [parse_text_of_notMem hcomma, unbracket_hostChars hbracket,
    if_neg (mt String.toList_eq_nil_iff.mp hne), String.ofList_toList]

end

end Address

end Courier
