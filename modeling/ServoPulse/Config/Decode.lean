import ServoPulse.Config
import ServoPulse.Width

/-!
# Reading a configuration from a document

A `Value` is a document of null, booleans, numbers, strings, lists and named fields.
Two shapes hold a configuration (`Config.ofValue?`):

* an object with the three parameters under their names, other names being ignored;
* a list of exactly the three parameters, in the order of the fields.

A parameter is a whole number in the range of its field. A number written with
decimal places is none, even where they are zero.
-/

namespace ServoPulse

/-- A document. -/
inductive Value where
  | null
  | bool (b : Bool)
  /-- The number `mantissa · 10 ^ -places`, written with `places` decimal places. -/
  | number (mantissa : Int) (places : Nat)
  | string (text : String)
  | list (items : List Value)
  | object (fields : List (String × Value))
  deriving Inhabited

namespace Value

/-- The value as a whole number below `bound`. -/
def natBelow? (bound : Nat) : Value → Option Nat
  | number (.ofNat n) 0 => if n < bound then some n else none
  | _ => none

/-- The first field of that name. -/
def field? (name : String) : Value → Option Value
  | object fields => fields.lookup name
  | _ => none

end Value

namespace Config

/-- The configuration made of three parameters read one by one. -/
def ofParameters? (wraps timeout poll : Value) : Option Config := do
  let wraps ← wraps.natBelow? (Width.size .bits8)
  let timeout ← timeout.natBelow? (Width.size .bits32)
  let poll ← poll.natBelow? (Width.size .bits32)
  return ⟨.ofNat wraps, .ofNat timeout, .ofNat poll⟩

/-- The configuration that a document holds, if it holds one. Its values are not
validated. -/
def ofValue? : Value → Option Config
  | .list [wraps, timeout, poll] => ofParameters? wraps timeout poll
  | v@(.object _) => do
    ofParameters? (← v.field? "wraps_per_period") (← v.field? "stop_timeout_us")
      (← v.field? "stop_poll_us")
  | _ => none

end Config

end ServoPulse
