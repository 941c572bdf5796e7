import ServoPulse.Engine.Pulses

/-!
# Starting an engine

`Engine.start` with a pin list replaces the channels by channels at rest, servo `i` on
the `i`-th pin; without one it resumes with the channels as they are. The configuration
and the list are checked before anything changes, so an error leaves the engine exactly
as it was (`start_eq_of_error`).

A running engine keeps its cadence. Pulses in flight still fall on time, so no pin sees
a truncated pulse, and the new channels emit nothing until they get a target.
-/

namespace ServoPulse

/-- Why an engine cannot be started. -/
inductive StartError where
  /-- More pins than channels. -/
  | tooManyServos
  /-- The board cannot pulse the pin. -/
  | ineligiblePin (pin : Nat)
  /-- The pin is listed twice. -/
  | duplicatePin (pin : Nat)
  /-- The engine cannot run with its configuration. -/
  | invalidConfig (error : Config.Error)
  deriving DecidableEq

/-- The text reported for a start that was refused. -/
def StartError.message : StartError → String
  | tooManyServos => s!"at most {maxServos} servos supported"
  | ineligiblePin pin => s!"pin {pin} cannot drive a servo"
  | duplicatePin pin => s!"pin {pin} listed more than once"
  | invalidConfig error => s!"invalid configuration: {error.message}"

/-- The first pin of a list that is not eligible or came before, where `seen` holds the
pins already checked. -/
def checkEach (eligible seen : List Nat) : List Nat → Except StartError Unit
  | [] => .ok ()
  | pin :: rest =>
    if pin ∉ eligible then .error (.ineligiblePin pin)
    else if pin ∈ seen then .error (.duplicatePin pin)
    else checkEach eligible (pin :: seen) rest

/-- A pin list is fit when it has at most six entries, all eligible and no two equal. -/
def checkPins (eligible pins : List Nat) : Except StartError Unit :=
  if maxServos < pins.length then .error .tooManyServos
  else checkEach eligible [] pins

namespace Engine

variable {β : Type} [Board β]

/-- What `start` has against a pin list, or against resuming. -/
def checkStart (e : Engine β) (pins? : Option (List Nat)) : Except StartError Unit :=
  match e.config.validate with
  | .error error => .error (.invalidConfig error)
  | .ok () =>
    match pins? with
    | some pins => checkPins (Board.eligible e.board) pins
    | none => .ok ()

/-- Starts the timer and notes that the engine runs. -/
def launch : Action (Engine β) Unit := do
  startPulses
  modify fun e => { e with started := true }

/-- Replaces the channels by channels at rest on `pins`. -/
def reconfigure (pins : List Nat) : Action (Engine β) Unit := do
  modify fun e => { e with table := .assign pins }
  configureOutputs
  modify fun e => { e with moving := false }

/-- **Starting.** Runs the engine on a new pin list, or resumes it without one. On a
running engine a new list takes effect at once and resuming does nothing. -/
def start (pins? : Option (List Nat)) : Action (Engine β) (Except StartError Unit) := do
  let e ← get
  match e.checkStart pins? with
  | .error error => return .error error
  | .ok () =>
    match pins? with
    | some pins => do
      reconfigure pins
      unless e.started do launch
    | none =>
      unless e.started do
        modify fun e => { e with moving := e.table.anyMoving }
        launch
    return .ok ()

/-- A start that is refused changes nothing. -/
theorem start_eq_of_error {e : Engine β} {pins? : Option (List Nat)} {error : StartError}
    (h : e.checkStart pins? = .error error) (p : Profile) :
    (start pins?).run p e = .ok (.error error) e := by
  simp [start, h]

end Engine

end ServoPulse
