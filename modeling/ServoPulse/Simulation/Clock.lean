import ServoPulse.Action
import ServoPulse.Ticks

/-!
# The simulated timer

A `Clock` is a time base together with a 16-bit counter that runs on it. Instead of
ticking, it jumps: `Clock.advanceUntil` moves straight to the next overflow or compare
match, unless the limit comes first, and raises the flags of what it reached.

Times are 64-bit numbers of ticks. A compare value equal to the present counter matches
one full turn later.
-/

namespace ServoPulse

/-- Simulated time and the timer that runs on it. -/
structure Clock where
  /-- The time, in ticks. -/
  now : Nat := 0
  /-- The time at which the counter last started from zero. -/
  origin : Nat := 0
  /-- Whether the counter runs. -/
  running : Bool := false
  /-- The armed compare value. -/
  compare : Option Count := none
  overflowPending : Bool := false
  comparePending : Bool := false
  /-- How often the timer was started. -/
  starts : Nat := 0
  deriving DecidableEq, Inhabited

namespace Clock

/-- The number of instants, and so a bound on events that follow each other in time. -/
def instants : Nat := Width.size .bits64

/-- The last instant. -/
def lastInstant : Nat := Width.last .bits64

/-! ### The timer -/

/-- Starts the counter from zero, disarmed and with both flags down. -/
def start : Action Clock Unit := do
  modify fun c =>
    { c with
      origin := c.now, running := true, compare := none, overflowPending := false,
      comparePending := false }
  let starts ← Checked.add .bits32 (← get).starts 1
  modify fun c => { c with starts }

/-- Stops the counter, disarms the compare channel and lowers both flags. -/
def stop (c : Clock) : Clock :=
  { c with running := false, compare := none, overflowPending := false, comparePending := false }

/-- The counter, which reads zero while the timer is stopped. -/
def counter (c : Clock) : Checked Count :=
  if c.running then Count.ofNat <$> Checked.sub .bits64 c.now c.origin
  else pure (.ofNat 0)

/-- Arms the compare channel. -/
def arm (c : Clock) (value : Count) : Clock := { c with compare := some value }

/-- Disarms the compare channel and lowers its flag. -/
def disarm (c : Clock) : Clock := { c with compare := none, comparePending := false }

/-- Reports the overflow flag and lowers it. -/
def takeOverflow (c : Clock) : Bool × Clock :=
  (c.overflowPending, { c with overflowPending := false })

/-- Reports the compare flag and lowers it. -/
def takeCompare (c : Clock) : Bool × Clock :=
  (c.comparePending, { c with comparePending := false })

/-- Whether an overflow or a compare match has not been taken yet. -/
def hasPending (c : Clock) : Bool := c.overflowPending || c.comparePending

/-! ### The passing of time -/

/-- Ticks from one counter value up to the next time that the counter shows another; a
full turn if they are equal. -/
def ticksTo (counter value : Count) : Nat :=
  if counter < value then value.val - counter.val
  else value.val + ticksPerWrap - counter.val

theorem ticksTo_pos (counter value : Count) : 0 < ticksTo counter value := by
  unfold ticksTo
  split
  · exact Nat.sub_pos_of_lt ‹counter < value›
  · have := counter.isLt
    omega

theorem ticksTo_le (counter value : Count) : ticksTo counter value ≤ ticksPerWrap := by
  have := value.isLt
  unfold ticksTo
  split
  · omega
  · have : value.val ≤ counter.val := Nat.le_of_not_lt ‹¬counter < value›
    omega

/-- The time of the next overflow. -/
def nextOverflow? (c : Clock) : Checked (Option Nat) :=
  if c.running then do
    let counter ← c.counter
    some <$> Checked.add .bits64 c.now (ticksPerWrap - counter.val)
  else pure none

/-- The time of the next compare match. -/
def nextCompare? (c : Clock) : Checked (Option Nat) :=
  match c.compare with
  | some value =>
    if c.running then do
      let counter ← c.counter
      some <$> Checked.add .bits64 c.now (ticksTo counter value)
    else pure none
  | none => pure none

/-- The earlier of two times that may not come. -/
def earlier? : Option Nat → Option Nat → Option Nat
  | some s, some t => some (min s t)
  | some s, none => some s
  | none, t? => t?

/-- The time of the next overflow or compare match. -/
def nextEvent? (c : Clock) : Checked (Option Nat) :=
  return earlier? (← c.nextOverflow?) (← c.nextCompare?)

/-- **The passing of time.** Moves forward to the next overflow or compare match,
raises its flag and answers `true`; both flags rise where the two fall together. If the
limit comes first, time moves there, never backward, and the answer is `false`. -/
def advanceUntil (limit : Nat) : Action Clock Bool := do
  let c ← get
  let overflow? ← c.nextOverflow?
  let compare? ← c.nextCompare?
  match earlier? overflow? compare? with
  | some next =>
    if next ≤ limit then
      set
        { c with
          now := next
          overflowPending := c.overflowPending || overflow? == some next
          comparePending := c.comparePending || compare? == some next }
      return true
    else
      set { c with now := max c.now limit }
      return false
  | none =>
    set { c with now := max c.now limit }
    return false

/-- The time `ticks` from now. -/
def after (c : Clock) (ticks : Nat) : Checked Nat := Checked.add .bits64 c.now ticks

/-- Lets time pass up to the limit; every event on the way raises its flag. -/
def passUntil (limit : Nat) : Action Clock Unit :=
  Action.repeatWhile (advanceUntil limit) instants

end Clock

end ServoPulse
