import ServoPulse.Pins.Outputs
import ServoPulse.Proofs.Levels
import ServoPulse.Proofs.Mirroring
import ServoPulse.Proofs.Passing
import ServoPulse.Proofs.Scripts

/-!
# Recorded pins predict a bank of outputs

Recorded pins refuse some requests, a bank of digital outputs none. Still the bank has the levels
of the recorder, as long as no pin rises that was not made an output: all that the recorder refuses
then is a rise of a pin that is high or a fall of a pin that is low, and these leave the level of
the bank as it is (`PinRecorder.Predicts.mirrors_drive`).

An engine raises the pins of its channels alone, which are outputs. So an engine on recorded pins
and one on a bank with slots for the same six pins mirror each other in all they do
(`Engine.Predicts`). The clocks of the two are the same. A trap of the clock is mirrored as well;
the one that is not is that of a recorder that has too many violations to count
(`PinRecorder.Full`).
-/

namespace ServoPulse

/-! ### Pins -/

namespace PinRecorder

variable {p : Profile} {now now' pin : Nat} {level : Bool} {ready : Nat → Prop} {r : PinRecorder}
  {b : OutputBank}

/-- The violations cannot be counted any further, which the `debug` profile reports. -/
def Full (p : Profile) (r : PinRecorder) : Prop :=
  p = .debug ∧ Width.bits32.size ≤ r.violations + 1

/-- The recorded pins have the levels of the bank, which has a slot for each. -/
structure Predicts (p : Profile) (now : Nat) (ready : Nat → Prop) (r : PinRecorder)
    (b : OutputBank) : Prop where
  ids : b.ids.Perm eligiblePins
  level_eq : ∀ pin, b.isHigh pin = r.isHigh pin
  output : ∀ pin, ready pin → r.Drivable pin
  rose_le : p = .debug → ∀ pin t, r.state pin = .high t → t ≤ now

namespace Predicts

theorem mono (h : Predicts p now ready r b) (h_now : p = .debug → now ≤ now') :
    Predicts p now' ready r b where
  ids := h.ids
  level_eq := h.level_eq
  output := h.output
  rose_le h_debug pin t h_high := Nat.le_trans (h.rose_le h_debug pin t h_high) (h_now h_debug)

/-- Whatever is recorded, and whatever violation is counted. -/
theorem of_pins_eq {r' : PinRecorder} (h : Predicts p now ready r b) (h_pins : r'.pins = r.pins) :
    Predicts p now ready r' b where
  ids := h.ids
  level_eq pin := (h.level_eq pin).trans (isHigh_congr h_pins pin).symm
  output pin h_ready := ⟨(h.output pin h_ready).1,
    (isOutput_congr h_pins pin).trans (h.output pin h_ready).2⟩
  rose_le h_debug pin t h_high :=
    h.rose_le h_debug pin t ((state_congr h_pins pin).symm.trans h_high)

/-- A bank that has the same levels. -/
theorem of_level_eq {b' : OutputBank} (h : Predicts p now ready r b) (h_ids : b'.ids = b.ids)
    (h_level : ∀ pin, b'.isHigh pin = b.isHigh pin) : Predicts p now ready r b' where
  ids := h_ids ▸ h.ids
  level_eq pin := (h_level pin).trans (h.level_eq pin)
  output := h.output
  rose_le := h.rose_le

theorem isHigh_drive (h : Predicts p now ready r b) (h_pin : pin ∈ eligiblePins) (level : Bool)
    (other : Nat) :
    (b.drive pin level).isHigh other = if other = pin then level else b.isHigh other := by
  have h_small : b.ids.length ≤ 32 := by
    rw [h.ids.length_eq]
    decide
  exact OutputBank.isHigh_drive h_small (h.ids.mem_iff.2 h_pin) level other

/-- Both change a pin alike. -/
theorem change (h : Predicts p now ready r b) (h_pin : pin ∈ eligiblePins) (level : Bool) :
    Predicts p now ready (r.setState pin (if level then .high now else .low))
      (b.drive pin level) where
  ids := (OutputBank.ids_drive pin level b).symm ▸ h.ids
  level_eq other := by
    rw [h.isHigh_drive h_pin, isHigh_setState h_pin]
    split
    · cases level <;> rfl
    · exact h.level_eq other
  output other h_ready := by
    refine ⟨(h.output other h_ready).1, ?_⟩
    rw [isOutput_setState h_pin]
    split
    · cases level <;> rfl
    · exact (h.output other h_ready).2
  rose_le h_debug other t h_high := by
    rw [state_setState_of_eligible h_pin] at h_high
    split at h_high
    · -- the driven pin has risen now, if it is high at all
      cases level with
      | true =>
        cases h_high
        exact Nat.le_refl now
      | false => cases h_high
    · exact h.rose_le h_debug other t h_high

/-- The bank has the level that it is asked for. -/
theorem repeated (h : Predicts p now ready r b) (h_pin : pin ∈ eligiblePins)
    (h_level : r.isHigh pin = level) : Predicts p now ready r (b.drive pin level) := by
  refine h.of_level_eq (OutputBank.ids_drive pin level b) fun other => ?_
  rw [h.isHigh_drive h_pin]
  split
  · rename_i h_eq
    rw [h_eq, h.level_eq, h_level]
  · rfl

/-- A violation is counted where the bank has the level that it is asked for, unless the count is
full. -/
theorem violate (h : Predicts p now ready r b) (h_pin : pin ∈ eligiblePins)
    (h_level : r.isHigh pin = level) :
    Action.Mirrored (Predicts p now ready) (Full p) (· = p)
      (modify (OutputBank.drive pin level) : Action OutputBank Unit) b
      (PinRecorder.violate.run p r) := by
  -- the pin has that level already, and the bank keeps it
  have h_same := h.repeated h_pin h_level
  rw [PinRecorder.violate, Action.run_get_bind, Action.run_bind, Action.run_liftM]
  cases p with
  | release => exact .ok (fun _ _ => rfl) (h_same.of_pins_eq rfl)
  | debug =>
    by_cases h_room : r.violations + 1 < Width.bits32.size
    · rw [Checked.run_add_of_lt h_room]
      exact .ok (fun _ _ => rfl) (h_same.of_pins_eq rfl)
    · -- the count is full and traps, which the bank cannot know
      have h_trap : (Checked.add .bits32 r.violations 1).run .debug = .error .addOverflow :=
        if_neg h_room
      rw [h_trap]
      exact .lost ⟨rfl, Nat.le_of_not_lt h_room⟩

/-- Only a ready pin rises. -/
theorem rise (h : Predicts p now ready r b) (h_pin : pin ∈ eligiblePins) (h_ready : ready pin) :
    Action.Mirrored (Predicts p now ready) (Full p) (· = p)
      (modify (OutputBank.drive pin true) : Action OutputBank Unit) b
      ((PinRecorder.rise now pin).run p r) := by
  rw [PinRecorder.rise, Action.run_get_bind]
  cases h_state : r.state pin with
  | unconfigured =>
    -- a pin that is ready is an output
    exact absurd h_state (h.output pin h_ready).state_ne
  | low => exact .ok (fun _ _ => rfl) (h.change h_pin true)
  | high roseAt =>
    -- a second rise is counted, and changes no level
    exact h.violate h_pin (by rw [isHigh, h_state])

theorem fall (h : Predicts p now ready r b) (h_pin : pin ∈ eligiblePins) :
    Action.Mirrored (Predicts p now ready) (Full p) (· = p)
      (modify (OutputBank.drive pin false) : Action OutputBank Unit) b
      ((PinRecorder.fall now pin).run p r) := by
  rw [PinRecorder.fall, Action.run_get_bind]
  cases h_state : r.state pin with
  | unconfigured =>
    -- the fall of a pin that is no output is counted, and the pin stays low
    exact h.violate h_pin (by rw [isHigh, h_state])
  | low => exact .ok (fun _ _ => rfl) (h.repeated h_pin (by rw [isHigh, h_state]))
  | high roseAt =>
    -- the pulse began in the past, and so it has a width
    obtain ⟨width, h_width⟩ := Checked.exists_run_sub (p := p) (w := .bits64)
      fun h_debug => h.rose_le h_debug pin roseAt h_state
    dsimp only
    rw [Action.run_modify_bind, Action.run_bind, Action.run_liftM, h_width]
    exact .ok (fun _ _ => rfl) ((h.change h_pin false).of_pins_eq rfl)

/-- **Levels.** The bank follows each request that the recorder follows, and has the level already
where the recorder refuses one. -/
theorem mirrors_drive (level : Bool) (h_ready : level = true → ready pin) :
    Action.Mirrors (Predicts p now ready) (Full p) p (· = p) (PinBank.drive level now pin)
      (PinBank.drive level now pin) := by
  intro r b h
  -- the bank drives both ways by one function
  have h_bank : (PinBank.drive level now pin : Action OutputBank Unit) =
      modify (OutputBank.drive pin level) := by
    cases level <;> rfl
  rw [h_bank, drive_eq]
  by_cases h_pin : pin ∈ eligiblePins
  · rw [if_pos h_pin]
    cases level with
    | true => exact h.rise h_pin (h_ready rfl)
    | false => exact h.fall h_pin
  · -- a pin that is not eligible is in neither bank
    rw [if_neg h_pin]
    refine .ok (fun q _ => ?_) h
    rw [Action.run_modify, OutputBank.drive_eq_self fun h_mem => h_pin (h.ids.mem_iff.1 h_mem)]

/-- A pin that is made an output is low on both sides. -/
theorem prepare (h : Predicts p now ready r b) (pin : Nat) :
    Predicts p now ready (PinBank.configureOutput pin r) (PinBank.configureOutput pin b) := by
  change Predicts p now ready (if pin ∈ eligiblePins then r.setState pin .low else r)
    (b.drive pin false)
  by_cases h_pin : pin ∈ eligiblePins
  · rw [if_pos h_pin]
    exact h.change h_pin false
  · -- nothing is made an output in either bank
    rw [if_neg h_pin, OutputBank.drive_eq_self fun h_mem => h_pin (h.ids.mem_iff.1 h_mem)]
    exact h

/-- A list of pins is prepared on both sides. -/
theorem prepareAll {pins : List Nat} (h : Predicts p now ready r b)
    (h_pins : ∀ pin ∈ pins, pin ∈ eligiblePins) :
    Predicts p now (· ∈ pins) (PinBank.prepareAll pins r) (PinBank.prepareAll pins b) := by
  -- the levels are followed pin by pin; that the pins are outputs is seen at the end
  have h_both : Predicts p now ready (PinBank.prepareAll pins r) (PinBank.prepareAll pins b) := by
    clear h_pins
    induction pins generalizing r b with
    | nil => exact h
    | cons pin pins ih =>
      rw [PinBank.prepareAll_cons, PinBank.prepareAll_cons, show PinBank.isHigh b pin =
        PinBank.isHigh r pin from h.level_eq pin]
      split
      · exact ih h
      · exact ih (h.prepare pin)
  refine ⟨h_both.ids, h_both.level_eq, fun pin h_pin => ?_, h_both.rose_le⟩
  have h_eligible : ∀ pin ∈ pins, pin ∈ PinBank.eligible r := h_pins
  exact ((PinBank.prepareAll_levels h_eligible).2.1 pin).2 (.inl h_pin)

end Predicts

end PinRecorder

/-! ### Benches -/

namespace Clock

/-- In the `debug` profile time does not run backward, not even where it traps. -/
def Forward {α : Type} (x : Action Clock α) : Prop :=
  ∀ c, Action.Ends .debug x c (fun _ c' => c.now ≤ c'.now) fun c' => c.now ≤ c'.now

theorem Forward.repeatWhile {x : Action Clock Bool} (h : Forward x) (fuel : Nat) :
    Forward (Action.repeatWhile x fuel) := by
  intro c
  have h_later : Action.Preserves (fun d => c.now ≤ d.now) .debug x := fun d h_d =>
    (h d).imp fun _ h => Nat.le_trans h_d h
  exact h_later.repeatWhile fuel c (Nat.le_refl c.now)

theorem forward_start : Forward start := by
  intro c
  refine .modify_bind (.get_bind (.liftM_bind (fun starts => ?_) (Nat.le_refl c.now)))
  exact Nat.le_refl c.now

theorem forward_advanceUntil (limit : Nat) : Forward (advanceUntil limit) := by
  intro c
  refine Action.ends_iff.2 ⟨fun event c' h => (keeps_advanceUntil limit h).now_le, ?_⟩
  -- a trap leaves the clock as it was
  intro trap c' h
  have h_ends : Action.Ends .debug (advanceUntil limit) c (fun _ _ => True) (· = c) := by
    refine .get_bind (.liftM_bind (fun overflow? => .liftM_bind (fun compare? => ?_) rfl) rfl)
    cases earlier? overflow? compare? with
    | some next => exact .ite (fun _ => trivial) fun _ => trivial
    | none => exact trivial
  exact Nat.le_of_eq (congrArg now ((Action.ends_iff.1 h_ends).2 trap c' h)).symm

theorem forward_passUntil (limit : Nat) : Forward (passUntil limit) :=
  (forward_advanceUntil limit).repeatWhile _

end Clock

namespace Bench

variable {α : Type} {p : Profile} {ready : Nat → Prop} {b : Bench PinRecorder}
  {c : Bench OutputBank}

/-- The bench with recorded pins predicts the bench with the bank. -/
structure Predicts (p : Profile) (ready : Nat → Prop) (b : Bench PinRecorder)
    (c : Bench OutputBank) : Prop where
  clock_eq : c.clock = b.clock
  lag_eq : c.lag = b.lag
  pins : b.pins.Predicts p b.clock.now ready c.pins

/-- The violations cannot be counted any further. -/
def Full (p : Profile) (b : Bench PinRecorder) : Prop := b.pins.Full p

namespace Predicts

/-- A change of the clock that does not touch the time. -/
theorem of_clock (h : Predicts p ready b c) {clock : Clock} (h_now : clock.now = b.clock.now) :
    Predicts p ready { b with clock } { c with clock } where
  clock_eq := rfl
  lag_eq := h.lag_eq
  pins := h.pins.mono fun _ => Nat.le_of_eq h_now.symm

/-- What the clock does, it does on both benches. -/
theorem mirrors_onClock {x : Action Clock α} (h_forward : Clock.Forward x) :
    Action.Mirrors (Predicts p ready) (Full p) p (· = p)
      (onClock x : Action (Bench PinRecorder) α) (onClock x) := by
  -- the two benches have one clock, and so this is one run
  have h_self : Action.Mirrors Eq (fun _ => False) p (· = p) x x := .refl x
  refine h_self.zoom (fun b c h => h.clock_eq.symm) ?_ fun _ _ h => h.elim
  rintro b c clock _ h h_end rfl
  refine ⟨rfl, h.lag_eq, h.pins.mono fun h_debug => ?_⟩
  subst h_debug
  exact (Action.ends_iff_forall_endsIn.1 (h_forward b.clock)) clock h_end

theorem mirrors_drive (level : Bool) {pin : Nat} (h_ready : level = true → ready pin) :
    Action.Mirrors (Predicts p ready) (Full p) p (· = p)
      (do onPins (PinBank.drive level (← get).clock.now pin) : Action (Bench PinRecorder) Unit)
      (do onPins (PinBank.drive level (← get).clock.now pin)) := by
  -- both benches read the instant from their clocks, so it is fixed first
  have h_pins (now : Nat) : Action.Mirrors
      (fun b c => Predicts p ready b c ∧ b.clock.now = now) (Full p) p (· = p)
      (onPins (PinBank.drive level now pin) : Action (Bench PinRecorder) Unit)
      (onPins (PinBank.drive level now pin)) := by
    refine (PinRecorder.Predicts.mirrors_drive level h_ready).zoom ?_ ?_ fun _ _ h => h
    · rintro b c ⟨h, rfl⟩
      exact h.pins
    · rintro b c r bank ⟨h, rfl⟩ - h_rel
      exact ⟨⟨h.clock_eq, h.lag_eq, h_rel⟩, rfl⟩
  intro b c h
  refine ((h_pins b.clock.now ⟨h, rfl⟩).mono fun _ _ => And.left).of_run_eq fun q _ => ?_
  rw [Action.run_get_bind, h.clock_eq]

theorem mirrors_armCompare (value : Count) :
    Action.Mirrors (Predicts p ready) (Full p) p (· = p)
      (armCompare value : Action (Bench PinRecorder) Unit) (armCompare value) := by
  refine .bind (.modify fun b c h => ?_) fun _ => ?_
  · -- the value is set without a change of the time
    rw [h.clock_eq]
    exact h.of_clock rfl
  · -- the lag to wait for is the same on both benches
    refine .get_liftM_bind (fun b c h => ?_) fun _ _ _ limit =>
      mirrors_onClock (Clock.forward_passUntil limit)
    rw [h.clock_eq, h.lag_eq]
    exact .inl fun q hq => by rw [hq]

/-- **Falls.** All that falls ask of a board comes to the same on the bench with the bank as on the
one with recorded pins, until violations cannot be counted any further. -/
theorem fallsMirror : FallsMirror (Predicts p ready) (Full p) p (· = p) where
  counter {b c} h := by
    change Checked.Mirrors _ _ _ b.clock.counter c.clock.counter
    rw [h.clock_eq]
    exact .inl fun q hq => by rw [hq]
  armCompare := mirrors_armCompare
  disarmCompare {b c} h := by
    change Predicts p ready { b with clock := b.clock.disarm } { c with clock := c.clock.disarm }
    rw [h.clock_eq]
    exact h.of_clock rfl
  -- a fall may be requested of any pin
  setLow pin := mirrors_drive false fun h_level => Bool.noConfusion h_level

theorem mirrors_setHigh (pin : Nat) (h_ready : ready pin) :
    Action.Mirrors (Predicts p ready) (Full p) p (· = p)
      (Board.setHigh pin : Action (Bench PinRecorder) Unit) (Board.setHigh pin) :=
  mirrors_drive true fun _ => h_ready

theorem stopTimer (h : Predicts p ready b c) :
    Predicts p ready (Board.stopTimer b) (Board.stopTimer c) := by
  change Predicts p ready { b with clock := b.clock.stop } { c with clock := c.clock.stop }
  rw [h.clock_eq]
  exact h.of_clock rfl

theorem takeOverflow (h : Predicts p ready b c) :
    (Board.takeOverflow c).1 = (Board.takeOverflow b).1 ∧
      Predicts p ready (Board.takeOverflow b).2 (Board.takeOverflow c).2 := by
  refine ⟨congrArg Clock.overflowPending h.clock_eq, ?_⟩
  change Predicts p ready { b with clock := b.clock.takeOverflow.2 }
    { c with clock := c.clock.takeOverflow.2 }
  rw [h.clock_eq]
  exact h.of_clock rfl

theorem takeCompare (h : Predicts p ready b c) :
    (Board.takeCompare c).1 = (Board.takeCompare b).1 ∧
      Predicts p ready (Board.takeCompare b).2 (Board.takeCompare c).2 := by
  refine ⟨congrArg Clock.comparePending h.clock_eq, ?_⟩
  change Predicts p ready { b with clock := b.clock.takeCompare.2 }
    { c with clock := c.clock.takeCompare.2 }
  rw [h.clock_eq]
  exact h.of_clock rfl

end Predicts

end Bench

/-! ### Engines -/

namespace Engine

variable {α : Type} {p : Profile} {ready : Nat → Prop}

/-- The engine with recorded pins predicts the engine with the bank: they differ in nothing but
their pins, which have the same levels, and the pins of the channels are outputs. -/
def Predicts (p : Profile) (e : Engine (Bench PinRecorder)) (t : Engine (Bench OutputBank)) :
    Prop :=
  ∃ ready, Facing (Bench.Predicts p ready) ready e t

/-- In the `debug` profile the violations cannot be counted any further. -/
def Full (p : Profile) (e : Engine (Bench PinRecorder)) : Prop := e.board.Full p

/-- What is mirrored whichever pins are outputs. -/
theorem mirrors_predicted {x : Action (Engine (Bench PinRecorder)) α}
    {y : Action (Engine (Bench OutputBank)) α}
    (h : ∀ ready, Action.Mirrors (Facing (Bench.Predicts p ready) ready) (Full p) p (· = p) x y) :
    Action.Mirrors (Predicts p) (Full p) p (· = p) x y :=
  fun _ _ ⟨ready, h_facing⟩ => (h ready h_facing).mono fun _ _ h => ⟨ready, h⟩

section Time

theorem mirrors_onClock {x : Action Clock α} (h : Clock.Forward x) :
    Action.Mirrors (Predicts p) (Full p) p (· = p) (onClock x) (onClock x) :=
  mirrors_predicted fun _ => mirrors_onBoard (Bench.Predicts.mirrors_onClock h)

theorem mirrors_interrupt :
    Action.Mirrors (Predicts p) (Full p) p (· = p) interrupt interrupt :=
  mirrors_predicted fun _ => Bench.Predicts.fallsMirror.interrupt Bench.Predicts.mirrors_setHigh
    Bench.Predicts.takeOverflow Bench.Predicts.takeCompare

theorem mirrors_shutDownOnBank :
    Action.Mirrors (Predicts p) (Full p) p (· = p) shutDown shutDown :=
  mirrors_predicted fun _ => mirrors_shutDown Bench.Predicts.stopTimer
    Bench.Predicts.fallsMirror.setLow

/-- A number computed from the time. -/
theorem mirrors_after_bind {x : Nat → Action (Engine (Bench PinRecorder)) α}
    {y : Nat → Action (Engine (Bench OutputBank)) α} (ticks : Nat)
    (h : ∀ limit, Action.Mirrors (Predicts p) (Full p) p (· = p) (x limit) (y limit)) :
    Action.Mirrors (Predicts p) (Full p) p (· = p) (do x (← (← get).after ticks))
      (do y (← (← get).after ticks)) := by
  refine .get_liftM_bind ?_ fun _ _ _ => h
  -- the limit is computed from the clock, which both have
  rintro e t ⟨ready, ⟨c, h_rel, rfl⟩, -⟩
  refine .inl fun q hq => ?_
  rw [hq, after, after, show (e.onto c).board.clock = e.board.clock from h_rel.clock_eq]

theorem mirrors_serveNext (limit : Nat) :
    Action.Mirrors (Predicts p) (Full p) p (· = p) (serveNext limit) (serveNext limit) := by
  refine .bind (mirrors_onClock (Clock.forward_advanceUntil limit)) fun event => ?_
  exact .ite (.bind mirrors_interrupt fun _ => .pure _) (.pure _)

theorem mirrors_advance (ticks : Nat) :
    Action.Mirrors (Predicts p) (Full p) p (· = p) (advance ticks) (advance ticks) :=
  mirrors_after_bind ticks fun limit => mirrors_onClock (Clock.forward_advanceUntil limit)

theorem mirrors_idle (x : Idle) : Action.Mirrors (Predicts p) (Full p) p (· = p) x.act x.act := by
  cases x with
  | advance ticks => exact .bind (mirrors_advance ticks) fun _ => .pure _
  | run ticks => exact mirrors_after_bind ticks fun limit => (mirrors_serveNext limit).repeatWhile _
  | pass ticks =>
    exact mirrors_after_bind ticks fun limit => mirrors_onClock (Clock.forward_passUntil limit)
  | interrupt => exact mirrors_interrupt

theorem mirrors_serveToward (before : UInt32) (goal : Nat) :
    Action.Mirrors (Predicts p) (Full p) p (· = p) (serveToward before goal)
      (serveToward before goal) := by
  refine .get_bind ?_
  rintro e t ⟨ready, ⟨c, h_rel, rfl⟩, -⟩
  refine .ite (.liftM_bind (fun q hq => ?_) fun next? => ?_) (.pure _)
  · rw [hq, show (e.onto c).board.clock = e.board.clock from h_rel.clock_eq]
  · exact .ite (.bind (mirrors_serveNext _) fun _ => .pure _) (.pure _)

theorem mirrors_runPeriods (goal : Nat) :
    Action.Mirrors (Predicts p) (Full p) p (· = p) (runPeriods goal) (runPeriods goal) := by
  refine .get_bind ?_
  rintro e t ⟨ready, ⟨c, -, rfl⟩, -⟩
  exact (mirrors_serveToward e.periods goal).repeatWhile _

/-- Both count the same periods. -/
theorem mirrors_countPeriods {x : Action (Engine (Bench PinRecorder)) Unit}
    {y : Action (Engine (Bench OutputBank)) Unit}
    (h : Action.Mirrors (Predicts p) (Full p) p (· = p) x y) :
    Action.Mirrors (Predicts p) (Full p) p (· = p) (countPeriods x) (countPeriods y) := by
  refine .get_bind ?_
  rintro e t ⟨ready, ⟨c, -, rfl⟩, -⟩
  refine .bind h fun _ => .get_bind ?_
  rintro e' t' ⟨ready', ⟨c', -, rfl⟩, -⟩
  -- the count of periods is a field of the engine
  exact .pure _

theorem mirrors_stopBy (waits : Nat → List Idle) :
    Action.Mirrors (Predicts p) (Full p) p (· = p) (stopBy waits) (stopBy waits) := by
  refine mirrors_stop mirrors_shutDownOnBank (fun k => .forM fun x _ => mirrors_idle x) ?_
  rintro e t ⟨ready, ⟨c, -, rfl⟩, -⟩
  exact ⟨rfl, rfl, rfl⟩

end Time

/-! ### Calls -/

/-- Only which pins are eligible matters to the check of a list. -/
theorem checkPins_congr {eligible eligible' : List Nat}
    (h : ∀ pin, pin ∈ eligible' ↔ pin ∈ eligible) (pins : List Nat) :
    checkPins eligible' pins = checkPins eligible pins := by
  have h_each (seen : List Nat) : checkEach eligible' seen pins = checkEach eligible seen pins := by
    induction pins generalizing seen with
    | nil => rfl
    | cons pin pins ih => simp only [checkEach, h, ih]
  rw [checkPins, checkPins, h_each]

theorem mirrors_launchOnBank : Action.Mirrors (Predicts p) (Full p) p (· = p) launch launch :=
  mirrors_predicted fun _ => mirrors_launch (Bench.Predicts.mirrors_onClock Clock.forward_start)

/-- The pins of the new channels are outputs. -/
theorem mirrors_reconfigure {pins : List Nat} (h_length : pins.length ≤ maxServos)
    (h_pins : ∀ pin ∈ pins, pin ∈ PinRecorder.eligiblePins) :
    Action.Mirrors (Predicts p) (Full p) p (· = p) (reconfigure pins) (reconfigure pins) := by
  rintro e t ⟨ready, ⟨c, h_rel, rfl⟩, -⟩
  rw [run_reconfigure h_length]
  -- from now on the pins of the list are ready
  refine .ok (fun q _ => run_reconfigure h_length)
    ⟨(· ∈ pins), ⟨_, ?_, rfl⟩, fun channel h_channel => ?_⟩
  · exact ⟨h_rel.clock_eq, h_rel.lag_eq, h_rel.pins.prepareAll h_pins⟩
  · have h_pin := List.mem_map_of_mem (f := Channel.pin) h_channel
    change channel.pin ∈ (ChannelTable.assign pins).active.map Channel.pin at h_pin
    rwa [ChannelTable.map_pin_assign h_length] at h_pin

/-- **Starts.** A start gets the same answer on both benches, as both have the same eligible pins,
and prepares the same pins on both. -/
theorem mirrors_start (pins? : Option (List Nat)) :
    Action.Mirrors (Predicts p) (Full p) p (· = p) (start pins?) (start pins?) := by
  refine .get_bind ?_
  rintro e t ⟨ready, ⟨c, h_rel, rfl⟩, -⟩
  -- the banks have the same pins, so the check has the same outcome
  have h_check : (e.onto c).checkStart pins? = e.checkStart pins? := by
    unfold checkStart
    rw [show (e.onto c).config = e.config from rfl]
    split
    · rfl
    · cases pins? with
      | some pins => exact checkPins_congr (fun pin => h_rel.pins.ids.mem_iff) pins
      | none => rfl
  rw [h_check]
  cases h_fit : e.checkStart pins? with
  | error error => exact .pure _
  | ok =>
    cases pins? with
    | some pins =>
      obtain ⟨h_length, -, h_pins⟩ := checkPins_ok ((checkStart_ok h_fit).2 pins rfl)
      refine .bind (mirrors_reconfigure h_length h_pins) fun _ => ?_
      exact .ite (.pure _) (.bind mirrors_launchOnBank fun _ => .pure _)
    | none =>
      -- without a list the pins stay those that are ready
      refine .ite (.pure _) (.bind ?_ fun _ => .bind mirrors_launchOnBank fun _ => .pure _)
      exact mirrors_predicted fun _ => mirrors_modify (fun _ => rfl) (fun _ => rfl) fun _ _ => rfl

end Engine

end ServoPulse
