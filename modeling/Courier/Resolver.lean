import Courier.Net.IpText

/-!
Host names and the addresses found for them. An address once found is kept, also
under its own text, so that a known host or a received address is never looked
up. A resolver can be restricted to one address family.
-/

namespace Courier

/-- What the network below a transport can fail with. -/
inductive NetError where
  | addressInUse
  | connectionRefused
  | hostNotFound
  deriving DecidableEq

namespace NetError

def message : NetError → String
  | addressInUse => "address in use"
  | connectionRefused => "connection refused"
  | hostNotFound => "host not found"

end NetError

inductive ResolveError where
  | lookup (cause : NetError)
  /-- the host has no address of the family -/
  | unusable (host : String)
  deriving DecidableEq

namespace ResolveError

def message : ResolveError → String
  | lookup cause => cause.message
  | unusable host =>
    "host " ++ host ++ " does not resolve to an address of a usable address family"

end ResolveError

structure Resolver where
  /-- the family that it is restricted to -/
  family : Option Ip.Family := none
  known : List (String × Ip) := []

namespace Resolver

def cached (r : Resolver) (host : String) : Option Ip := r.known.lookup host

/-- Keeps an address for a host and for its own text. -/
def remember (r : Resolver) (host : String) (ip : Ip) : Resolver :=
  let put (entries : List (String × Ip)) (key : String) := (key, ip) :: entries.filter (·.1 ≠ key)
  { r with known := put (put r.known host) ip.text }

/-- What resolving a host came to, and whether it was looked up. -/
structure Resolution where
  result : Except ResolveError Ip
  resolver : Resolver
  lookedUp : Bool

/-- The first address of a list that the resolver may use. -/
def usable? (r : Resolver) (found : List Ip) : Option Ip :=
  found.find? fun ip => r.family.all (ip.family == ·)

/-- Resolves a host: a known one from memory, an address as itself, and any
other by looking it up. -/
def resolve (r : Resolver) (host : String) (lookup : String → Except NetError (List Ip)) :
    Resolution :=
  match r.cached host with
  | some ip => ⟨.ok ip, r, false⟩
  | none =>
    match Ip.ofText? host with
    | some ip => ⟨.ok ip, r.remember host ip, false⟩
    | none =>
      match lookup host with
      | .error e => ⟨.error (.lookup e), r, true⟩
      | .ok found =>
        match r.usable? found with
        | none => ⟨.error (.unusable host), r, true⟩
        | some ip => ⟨.ok ip, r.remember host ip, true⟩

end Resolver

end Courier
