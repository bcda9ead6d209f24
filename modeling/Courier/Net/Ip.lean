/-!
Internet addresses of both families, alone and with a port.
-/

namespace Courier

/-- An internet address: four octets, or eight 16-bit groups. -/
inductive Ip where
  | v4 (a b c d : UInt8)
  | v6 (groups : Vector UInt16 8)
  deriving DecidableEq

namespace Ip

inductive Family where
  | v4
  | v6
  deriving DecidableEq

def family : Ip → Family
  | v4 .. => .v4
  | v6 _ => .v6

/-- The address that stands for every address of the host. -/
def unspecified : Family → Ip
  | .v4 => v4 0 0 0 0
  | .v6 => v6 #v[0, 0, 0, 0, 0, 0, 0, 0]

/-- The address of the host itself. -/
def loopback : Family → Ip
  | .v4 => v4 127 0 0 1
  | .v6 => v6 #v[0, 0, 0, 0, 0, 0, 0, 1]

def isUnspecified (ip : Ip) : Bool := ip == unspecified ip.family

end Ip

/-- An address and a port. A link-local address of the newer family can name the
interface that it belongs to by a non-zero `scope`. -/
structure SocketAddr where
  ip : Ip
  port : UInt16
  scope : UInt32 := 0
  deriving DecidableEq

namespace SocketAddr

def family (a : SocketAddr) : Ip.Family := a.ip.family

/-- The same port of another address of the family. -/
def withIp (a : SocketAddr) (ip : Ip) : SocketAddr := { a with ip := ip, scope := 0 }

end SocketAddr

end Courier
