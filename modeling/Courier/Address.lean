import Courier.Endpoint
import Courier.Text.Blank
import Courier.Text.Cut

/-!
Addresses as users write them, `scheme://host:port` and then any number of
options `,key=value` or `,key`. The port stands after the last colon, and one
pair of brackets around the host is taken off.
-/

namespace Courier

inductive AddressError where
  | invalid (text : String)
  | notNumeric (key value : String)
  deriving DecidableEq

namespace AddressError

def message : AddressError → String
  | invalid text => "invalid address '" ++ text ++ "'"
  | notNumeric key value =>
    "invalid address 'option " ++ key ++ "=" ++ value ++ " is not numeric'"

end AddressError

/-- Settings by key, the latest first. -/
structure Options where
  entries : List (String × String) := []

namespace Options

/-- Later settings of a key replace earlier ones. -/
def set (o : Options) (key value : String) : Options :=
  ⟨(key, value) :: o.entries.filter (·.1 ≠ key)⟩

def get? (o : Options) (key : String) : Option String := o.entries.lookup key

theorem get?_set (o : Options) (key value k : String) :
    (o.set key value).get? k = if k = key then some value else o.get? k := by
  by_cases h : k = key
  · simp [get?, set, h]
  · have hk : (k == key) = false := by simpa using h
    simp only [get?, set, List.lookup_cons, hk, h, if_false, decide_not]
    induction o.entries with
    | nil => rfl
    | cons e rest ih =>
      obtain ⟨a, b⟩ := e
      by_cases ha : a = key
      · simp [ha, List.lookup_cons, hk, ih]
      · simp [ha, List.lookup_cons, ih]

end Options

structure Address where
  protocol : Protocol
  host : String
  port : UInt16
  options : Options

namespace Address

def endpoint (a : Address) : Endpoint := ⟨a.protocol, a.host, a.port⟩

/-- An option counts as set unless its value says no. -/
def flag (a : Address) (key : String) : Bool :=
  match a.options.get? key with
  | none => false
  | some v => !(v = "0" ∨ v = "false" ∨ v = "no")

/-- The value of an option in a numeric type, or nothing for an absent option. -/
def numeric {α : Type} (a : Address) (key : String) (read : List Char → Option α) :
    Except AddressError (Option α) :=
  match a.options.get? key with
  | none => .ok none
  | some v =>
    match read v.toList with
    | some n => .ok (some n)
    | none => .error (.notNumeric key v)

/-- The host without one pair of brackets around it. -/
def unbracket (host : List Char) : List Char :=
  match host with
  | '[' :: rest => if rest.getLast? = some ']' then rest.dropLast else host
  | _ => host

/-- Protocol, host and port from the part before the options. -/
def ofMain? (main : List Char) : Option (Protocol × List Char × UInt16) := do
  let (scheme, rest) ← Text.cutFirst ':' main
  let (host, port) ← Text.cutLast ':' rest
  let host ← match host with
    | '/' :: '/' :: host => some (unbracket host)
    | _ => none
  guard (host ≠ [])
  let port ← Text.natural? 65535 port
  let protocol ← Protocol.ofChars? scheme
  pure (protocol, host, UInt16.ofNat port)

/-- One setting: key and value without blanks around them, and an empty value
if the segment has no equals sign. An empty segment sets nothing. -/
def applySegment (o : Options) (segment : List Char) : Options :=
  let tidy (cs : List Char) := String.ofList (Text.trim cs)
  if segment = [] then o
  else
    match Text.cutFirst '=' segment with
    | some (key, value) => o.set (tidy key) (tidy value)
    | none => o.set (tidy segment) ""

/-- Reads an address; its own settings override the default ones. -/
def parse (text : String) (defaults : List (String × String)) : Except AddressError Address :=
  let cs := text.toList
  let main := (Text.segments ',' cs).headD []
  match ofMain? main with
  | none => .error (.invalid text)
  | some (protocol, host, port) =>
    let start := defaults.foldl (fun o (key, value) => o.set key value) (⟨[]⟩ : Options)
    let options := (Text.segments ',' cs).tail.foldl applySegment start
    .ok ⟨protocol, String.ofList host, port, options⟩

end Address

end Courier
