import ServoPulse.Proofs.Returning

/-!
# Requests to drive pins

A `Journal` stands in front of a bank of pins and writes down every request to drive one, with its
time and its level, whether or not the level changes by it and whether or not the bank then traps.
A `Scope` sees what the pins do; a journal sees what an engine asks of them, which does not depend
on the pins at all.

The bank behind a journal is as lawful and as roomy as without it.
-/

namespace ServoPulse

/-- A request to drive a pin to a level. -/
structure Drive where
  time : Nat
  pin : Nat
  level : Bool
  deriving DecidableEq

/-- A bank of pins and the requests that were made of it. -/
structure Journal (P : Type) where
  pins : P
  /-- Every request to drive a pin so far, in order. -/
  drives : List Drive := []
  deriving DecidableEq

namespace Journal

variable {P : Type}

/-- The journal with one more request. -/
def enter (x : Drive) (j : Journal P) : Journal P := { j with drives := j.drives ++ [x] }

/-- Runs an action of the bank. -/
def onPins (x : Action P Unit) : Action (Journal P) Unit :=
  Action.zoom Journal.pins (fun pins j => { j with pins }) x

variable [PinBank P]

instance : PinBank (Journal P) where
  eligible j := PinBank.eligible j.pins
  configureOutput pin j := { j with pins := PinBank.configureOutput pin j.pins }
  setHigh now pin := do
    modify (enter ⟨now, pin, true⟩)
    onPins (PinBank.setHigh now pin)
  setLow now pin := do
    modify (enter ⟨now, pin, false⟩)
    onPins (PinBank.setLow now pin)
  isHigh j := PinBank.isHigh j.pins

variable {p : Profile} {level : Bool} {now : Nat} {j j' : Journal P}

theorem run_drive_eq_ok_iff {pin : Nat} :
    (PinBank.drive level now pin).run p j = .ok () j' ↔
      ∃ pins, (PinBank.drive level now pin).run p j.pins = .ok () pins ∧
        { pins, drives := j.drives ++ [⟨now, pin, level⟩] } = j' := by
  -- the request is entered and then handed to the bank
  cases level with
  | false =>
    change (onPins (PinBank.setLow now pin)).run p (j.enter ⟨now, pin, false⟩) = _ ↔ _
    exact Action.run_zoom_eq_ok_iff
  | true =>
    change (onPins (PinBank.setHigh now pin)).run p (j.enter ⟨now, pin, true⟩) = _ ↔ _
    exact Action.run_zoom_eq_ok_iff

/-- A list of requests is written down as it is. -/
theorem drives_driveAll {pins : List Nat}
    (h : (PinBank.driveAll level now pins).run p j = .ok () j') :
    j'.drives = j.drives ++ pins.map (⟨now, ·, level⟩) := by
  -- induction on the pins, each of which enters one request
  induction pins generalizing j with
  | nil =>
    obtain rfl := Action.run_forM_nil_eq_ok_iff.1 h
    exact (List.append_nil _).symm
  | cons pin pins ih =>
    obtain ⟨t, h_pin, h_pins⟩ := Action.run_forM_cons_eq_ok_iff.1 h
    obtain ⟨_, -, rfl⟩ := run_drive_eq_ok_iff.1 h_pin
    rw [ih h_pins, List.append_assoc, List.map_cons]
    rfl

instance [LawfulPinBank P] : LawfulPinBank (Journal P) where
  isOutput j := LawfulPinBank.isOutput j.pins
  faults j := LawfulPinBank.faults j.pins
  isOutput_of_isHigh := LawfulPinBank.isOutput_of_isHigh (P := P)
  eligible_configureOutput j := LawfulPinBank.eligible_configureOutput j.pins
  isHigh_configureOutput := LawfulPinBank.isHigh_configureOutput (P := P)
  isOutput_configureOutput := LawfulPinBank.isOutput_configureOutput (P := P)
  faults_configureOutput j := LawfulPinBank.faults_configureOutput j.pins
  -- a request of the journal is one of its bank, and what the law says is said of the bank
  eligible_drive h := by
    obtain ⟨pins, h_pins, rfl⟩ := run_drive_eq_ok_iff.1 h
    exact LawfulPinBank.eligible_drive (P := P) h_pins
  isHigh_drive h_out h := by
    obtain ⟨pins, h_pins, rfl⟩ := run_drive_eq_ok_iff.1 h
    exact LawfulPinBank.isHigh_drive (P := P) h_out h_pins
  isOutput_drive h := by
    obtain ⟨pins, h_pins, rfl⟩ := run_drive_eq_ok_iff.1 h
    exact LawfulPinBank.isOutput_drive (P := P) h_pins
  faults_drive h_out h_low h := by
    obtain ⟨pins, h_pins, rfl⟩ := run_drive_eq_ok_iff.1 h
    exact LawfulPinBank.faults_drive (P := P) h_out h_low h_pins

instance [LawfulPinBank P] [RoomyPinBank P] : RoomyPinBank (Journal P) where
  Room now n j := RoomyPinBank.Room now n j.pins
  mono := RoomyPinBank.mono (P := P)
  -- there is room when the bank has room, as entering takes none
  drive {now n pin level j} h := by
    obtain ⟨⟨⟩, pins, h_run, h_room⟩ : (PinBank.drive level now pin).Returns .debug j.pins
        fun _ pins => RoomyPinBank.Room now n pins := RoomyPinBank.drive h
    exact ⟨⟨⟩, _, run_drive_eq_ok_iff.2 ⟨pins, h_run, rfl⟩, h_room⟩
  of_drive h h_run := by
    obtain ⟨pins, h_pins, rfl⟩ := run_drive_eq_ok_iff.1 h_run
    exact RoomyPinBank.of_drive (P := P) h h_pins
  of_configureOutput := RoomyPinBank.of_configureOutput (P := P)
  of_faults := RoomyPinBank.of_faults (P := P)

end Journal

end ServoPulse
