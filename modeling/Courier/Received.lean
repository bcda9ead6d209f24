import Courier.Bytes
import Courier.Endpoint

/-!
A complete message as the application gets it.
-/

namespace Courier

structure Received where
  /-- the sender, in a form that can be replied to -/
  sender : Endpoint
  data : Bytes
  /-- false for best-effort messages only -/
  reliable : Bool
  deriving DecidableEq

end Courier
