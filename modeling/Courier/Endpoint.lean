import Courier.Net.IpText

/-!
The identity of a peer: a protocol, an address and a port. Its text can be
handed back as the address to reply to.
-/

namespace Courier

inductive Protocol where
  | tcp
  | udp
  deriving DecidableEq

namespace Protocol

def text : Protocol → String
  | tcp => "tcp"
  | udp => "udp"

def name : Protocol → String
  | tcp => "Tcp"
  | udp => "Udp"

def ofChars? (cs : List Char) : Option Protocol :=
  if cs = ['t', 'c', 'p'] then some tcp
  else if cs = ['u', 'd', 'p'] then some udp
  else none

def ofText? (s : String) : Option Protocol := ofChars? s.toList

end Protocol

structure Endpoint where
  protocol : Protocol
  address : String
  port : UInt16
  deriving DecidableEq

namespace Endpoint

def ofSocketAddr (p : Protocol) (a : SocketAddr) : Endpoint := ⟨p, a.ip.text, a.port⟩

/-- Address and port. An address with a colon in it takes brackets, so that the
port stands after the last colon. -/
def hostPort (e : Endpoint) : String :=
  let host := if ':' ∈ e.address.toList then "[" ++ e.address ++ "]" else e.address
  host ++ ":" ++ toString e.port.toNat

def text (e : Endpoint) : String := e.protocol.text ++ "://" ++ e.hostPort

/-- The text as it stands in other texts. -/
def label (e : Endpoint) : String := "[" ++ e.text ++ "]"

end Endpoint

end Courier
