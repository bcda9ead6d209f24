import Courier.Address
import Courier.Bytes
import Courier.Duration
import Courier.Text.Integer

/-!
The options of an address that a manager knows: whether a send waits and how
long, the port to connect from, and whether and how to listen.
-/

namespace Courier.Address

/-- How long a send waits for its message, if it waits at all: `wait`
milliseconds, or a default time. -/
def waitLimit (a : Address) (fallback : Duration) : Except AddressError (Option Duration) :=
  if a.flag "block" then
    (a.numeric "wait" (Text.natural? wordMax)).map fun wait =>
      some ((wait.map Duration.ofMillis).getD fallback)
  else .ok none

/-- The local port to connect from; 0 is any port. -/
def localPort (a : Address) : Except AddressError UInt16 :=
  (a.numeric "local_port" (Text.natural? 65535)).map fun port => UInt16.ofNat (port.getD 0)

/-- Addresses to listen on are bound unless they say otherwise. -/
def listenDefaults : List (String × String) := [("bnd", "")]

def listens (a : Address) : Bool := a.flag "bnd"

def tracksIncoming (a : Address) : Bool := a.flag "track_incoming"

end Courier.Address
