import Courier.Proofs.Address
import Courier.Proofs.Resolver

/-!
Replies to received messages. Main statement: the endpoint of a socket address is an address to
send to that leads back to this socket address, for every resolver and without a lookup.
-/

namespace Courier

section

variable (p : Protocol)

/-- Brackets stand where the text of the socket address has them. -/
theorem Endpoint.ofText?_hostPort (ip : Ip) (port : UInt16) :
    SocketAddr.ofText? (ofSocketAddr p ⟨ip, port, 0⟩).hostPort = some ⟨ip, port, 0⟩ := by
  have hchars : (ofSocketAddr p ⟨ip, port, 0⟩).hostPort.toList =
      SocketAddr.toChars ⟨ip, port, 0⟩ := by
    have htext : ip.text.toList = ip.toChars := String.toList_ofList
    rw [toList_hostPort]
    dsimp only [hostChars, ofSocketAddr]
    rw [htext]
    cases ip with
    | v4 a b c d =>
      rw [if_neg (Ip.colon_notMem_v4 a b c d)]
      rfl
    | v6 groups =>
      rw [if_pos (Ip.colon_mem_v6 groups)]
      simp [SocketAddr.toChars]
  rw [SocketAddr.ofText?, hchars, SocketAddr.ofChars?_toChars]

/-- Every received endpoint can be replied to: its text is an address without options and with
this endpoint, which stands for the socket address, and neither the host names asked for before
nor what a lookup finds lead anywhere else. -/
theorem reply_ofSocketAddr (ip : Ip) (port : UInt16) :
    let a : SocketAddr := ⟨ip, port, 0⟩
    let e := Endpoint.ofSocketAddr p a
    ∃ x, Address.parse e.text [] = .ok x ∧ x.protocol = p ∧ x.options = ⟨[]⟩ ∧ x.endpoint = e ∧
      SocketAddr.ofText? x.endpoint.hostPort = some a ∧
      ∀ (family : Option Ip.Family) (queries : List Resolver.Query)
        (lookup : String → Except NetError (List Ip)),
        let r := Resolver.after { family } queries
        let q : Resolver.Query := ⟨x.host, x.port, lookup⟩
        r.answer q = .ok a ∧ (r.ask q).lookedUp = false := by
  intro a e
  have hparse : Address.parse e.text [] = .ok ⟨p, ip.text, port, ⟨[]⟩⟩ :=
    Address.parse_text (e := e) (Ip.notMem_text Ip.not_isAddressChar_comma) ip.text_ne_empty
      (.inr (Ip.head?_text_ne Ip.not_isAddressChar_bracket))
  refine ⟨_, hparse, rfl, rfl, rfl, Endpoint.ofText?_hostPort p ip port, ?_⟩
  intro family queries lookup r q
  obtain ⟨hresult, hlookedUp⟩ :=
    (Resolver.coherent_after family queries).ask_literal (q := q) ip.ofText?_text
  refine ⟨?_, hlookedUp⟩
  rw [Resolver.answer, hresult]
  rfl

end

end Courier
