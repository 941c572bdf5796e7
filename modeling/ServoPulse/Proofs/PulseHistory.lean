import Mathlib.Data.List.DropRight
import Mathlib.Logic.Function.Basic
import ServoPulse.Proofs.Endings
import ServoPulse.Proofs.Epochs
import ServoPulse.Proofs.PinCalls

/-!
# The history of recorded pins

A `PinHistory` follows recorded pins and forgets nothing but the rise of a pin that is made an
output while it is high. It lists all pulses ever completed, with a mark where the record was last
cleared, and counts violations without end.

The recorder keeps the last 64 pulses of the history since the mark, of all pins together
(`pulses_are_last_of_history`). That is what one event preserves (`PinRecorder.Keeps`,
`Bench.Keeps.act`): of the pulses since the mark the recorder lacks only such as 64 newer ones
have pushed out, and these stay out. A pulse has the width that the history gives it because
no pin rose after the present time, so that time must not run back.
-/

namespace ServoPulse

/-! ### Events -/

/-- What happens to recorded pins on a bench. -/
inductive PinEvent where
  | call (k : PinCall)
  | clearPulses
  /-- Time passes up to a limit, or up to the next event of the timer if that comes first. -/
  | advance (limit : UInt64)

/-- An event on a bench. A call is made at the present time. -/
def PinEvent.act : PinEvent → Action (Bench PinRecorder) Unit
  | call k => do Bench.onPins (k.onBank (← get).clock.now)
  | clearPulses => modify fun b => { b with pins := b.pins.clearPulses }
  | advance limit => do _ ← Bench.onClock (Clock.advanceUntil limit.toNat)

/-! ### The history -/

/-- What an output is doing: it is high since it rose, or low. -/
def PinState.ofRise? : Option Nat → PinState
  | some t => .high t
  | none => .low

/-- What has happened to pins. -/
structure PinHistory where
  /-- The pins that were made outputs. -/
  isOutput : Nat → Bool := fun _ => false
  /-- The times at which the pins that are high rose. -/
  roseAt? : Nat → Option Nat := fun _ => none
  /-- All pulses ever completed, oldest first. -/
  completed : List Pulse := []
  /-- How many pulses were complete when the record was last cleared. -/
  cleared : Nat := 0
  /-- All rises and falls that were out of order. -/
  violations : Nat := 0

namespace PinHistory

variable {h : PinHistory} {pin now : Nat} {rose? : Option Nat}

/-- The pulses completed since the record was last cleared, oldest first. -/
def sinceCleared (h : PinHistory) : List Pulse := h.completed.drop h.cleared

/-- The history with a pin risen at a time, or fallen. -/
def withRise (h : PinHistory) (pin : Nat) (rose? : Option Nat) : PinHistory :=
  { h with roseAt? := Function.update h.roseAt? pin rose? }

def violate (h : PinHistory) : PinHistory := { h with violations := h.violations + 1 }

/-- The history after a call at the time `now`. -/
def afterCall (now : Nat) (h : PinHistory) : PinCall → PinHistory
  | .configureOutput pin =>
    if pin ∈ PinRecorder.eligiblePins then
      { h.withRise pin none with isOutput := Function.update h.isOutput pin true }
    else h
  | .setHigh pin =>
    if pin ∈ PinRecorder.eligiblePins then
      if h.isOutput pin ∧ h.roseAt? pin = none then h.withRise pin (some now) else h.violate
    else h
  | .setLow pin =>
    if pin ∈ PinRecorder.eligiblePins then
      if h.isOutput pin then
        match h.roseAt? pin with
        | some t =>
          { h.withRise pin none with completed := h.completed ++ [⟨pin, t, now - t⟩] }
        | none => h
      else h.violate
    else h

/-- The history after an event at the time `now`. -/
def after (now : Nat) (h : PinHistory) : PinEvent → PinHistory
  | .call k => h.afterCall now k
  | .clearPulses => { h with cleared := h.completed.length }
  | .advance _ => h

/-- What a pin is doing. -/
def state (h : PinHistory) (pin : Nat) : PinState :=
  if h.isOutput pin then .ofRise? (h.roseAt? pin) else .unconfigured

theorem state_of_not_output (h_output : h.isOutput pin = false) :
    h.state pin = .unconfigured := by
  rw [state, h_output]
  rfl

theorem state_of_low (h_output : h.isOutput pin = true) (h_rose : h.roseAt? pin = none) :
    h.state pin = .low := by
  rw [state, if_pos h_output, h_rose, PinState.ofRise?]

theorem state_of_high {t : Nat} (h_output : h.isOutput pin = true)
    (h_rose : h.roseAt? pin = some t) : h.state pin = .high t := by
  rw [state, if_pos h_output, h_rose, PinState.ofRise?]

/-- Where outputs and rises are changed for one pin, only that pin does something else. -/
theorem state_update (output : Bool) (other : Nat) :
    state { h with
      isOutput := Function.update h.isOutput pin output
      roseAt? := Function.update h.roseAt? pin rose? } other =
    if other = pin then if output then .ofRise? rose? else .unconfigured else h.state other := by
  by_cases h_eq : other = pin
  · subst h_eq
    simp only [state, Function.update_self, if_true]
  · simp only [state, Function.update_of_ne h_eq, h_eq, if_false]

/-- A pin that was an output before it rose or fell is one after. -/
theorem withRise_eq (h_output : h.isOutput pin = true) :
    h.withRise pin rose? = { h with
      isOutput := Function.update h.isOutput pin true
      roseAt? := Function.update h.roseAt? pin rose? } := by
  rw [withRise, ← h_output, Function.update_eq_self]

end PinHistory

/-! ### What the recorder keeps of it -/

namespace PinRecorder

variable {p : Profile} {now later pin t : Nat} {h : PinHistory} {r : PinRecorder}

/-- At the time `now`, the recorder has kept of the history what it is to keep. -/
structure Keeps (now : Nat) (h : PinHistory) (r : PinRecorder) : Prop where
  state_eq : ∀ pin, r.state pin = h.state pin
  pulses_eq : r.pulses = lastOf capacity h.sinceCleared
  violations_eq : r.violations = h.violations % Width.bits32.size
  /-- What is high is an output, and rose in the past. -/
  of_rose : ∀ {pin t}, h.roseAt? pin = some t → h.isOutput pin = true ∧ t ≤ now
  cleared_le : h.cleared ≤ h.completed.length

/-- One violation too many for the count of the recorder, which the `debug` profile does not let
wrap around. -/
def Overcounts (p : Profile) (h : PinHistory) : Prop :=
  p = .debug ∧ Width.bits32.size ∣ h.violations + 1

namespace Keeps

theorem new (now : Nat) : Keeps now {} {} where
  state_eq pin := by
    rw [state, Vector.getElem?_replicate]
    split <;> rfl
  pulses_eq := rfl
  violations_eq := rfl
  of_rose := nofun
  cleared_le := Nat.le_refl _

theorem mono (h_keeps : Keeps now h r) (h_le : now ≤ later) : Keeps later h r :=
  { h_keeps with
    of_rose := fun h_rose => (h_keeps.of_rose h_rose).imp_right (Nat.le_trans · h_le) }

/-- A pin is made an output, rises or falls. -/
theorem setState (h_keeps : Keeps now h r) (h_pin : pin ∈ eligiblePins) (rose? : Option Nat)
    (h_rose : ∀ t, rose? = some t → t ≤ now) :
    Keeps now
      { h with
        isOutput := Function.update h.isOutput pin true
        roseAt? := Function.update h.roseAt? pin rose? }
      (r.setState pin (.ofRise? rose?)) where
  state_eq other := by
    rw [state_setState_of_eligible h_pin, PinHistory.state_update, h_keeps.state_eq other,
      if_pos rfl]
  pulses_eq := h_keeps.pulses_eq
  violations_eq := h_keeps.violations_eq
  of_rose {other t} h_other := by
    -- the new rise is not in the future, and the others are as they were
    by_cases h_eq : other = pin
    · subst h_eq
      simp only [Function.update_self] at h_other ⊢
      exact ⟨trivial, h_rose t h_other⟩
    · simp only [Function.update_of_ne h_eq] at h_other ⊢
      exact h_keeps.of_rose h_other
  cleared_le := h_keeps.cleared_le

/-- A pulse is completed, and the oldest one goes if there are too many. -/
theorem record (h_keeps : Keeps now h r) (x : Pulse) :
    Keeps now { h with completed := h.completed ++ [x] } (r.record x) where
  state_eq := h_keeps.state_eq
  pulses_eq := by
    -- clearing cuts in front, a new pulse is added behind
    have h_since : (h.completed ++ [x]).drop h.cleared = h.sinceCleared ++ [x] :=
      List.drop_append_of_le_length h_keeps.cleared_le
    calc lastOf capacity (r.pulses ++ [x])
        = lastOf capacity (lastOf capacity h.sinceCleared ++ [x]) := by rw [h_keeps.pulses_eq]
      _ = lastOf capacity (h.sinceCleared ++ [x]) := lastOf_lastOf_append _ _ _
      _ = lastOf capacity ((h.completed ++ [x]).drop h.cleared) := by rw [h_since]
  violations_eq := h_keeps.violations_eq
  of_rose := h_keeps.of_rose
  cleared_le := by
    rw [List.length_append]
    exact Nat.le_add_right_of_le h_keeps.cleared_le

theorem clearPulses (h_keeps : Keeps now h r) :
    Keeps now { h with cleared := h.completed.length } r.clearPulses where
  state_eq := h_keeps.state_eq
  pulses_eq := by
    -- no pulse is younger than the last clearing
    rw [PinHistory.sinceCleared, List.drop_length]
    rfl
  violations_eq := h_keeps.violations_eq
  of_rose := h_keeps.of_rose
  cleared_le := Nat.le_refl _

theorem isHigh_eq (h_keeps : Keeps now h r) (pin : Nat) :
    r.isHigh pin = (h.roseAt? pin).isSome := by
  rw [isHigh, h_keeps.state_eq]
  cases h_rose : h.roseAt? pin with
  | some t => rw [PinHistory.state_of_high (h_keeps.of_rose h_rose).1 h_rose, Option.isSome_some]
  | none =>
    -- without a rise the pin is low, or no output
    cases h_output : h.isOutput pin with
    | true => rw [PinHistory.state_of_low h_output h_rose, Option.isSome_none]
    | false => rw [PinHistory.state_of_not_output h_output, Option.isSome_none]

theorem isOutput_eq (h_keeps : Keeps now h r) (pin : Nat) : r.isOutput pin = h.isOutput pin := by
  rw [isOutput, h_keeps.state_eq]
  cases h_output : h.isOutput pin with
  | false =>
    rw [PinHistory.state_of_not_output h_output]
    rfl
  | true =>
    cases h_rose : h.roseAt? pin with
    | some t =>
      rw [PinHistory.state_of_high h_output h_rose]
      rfl
    | none =>
      rw [PinHistory.state_of_low h_output h_rose]
      rfl

theorem ends_violate (h_keeps : Keeps now h r) :
    violate.Ends p r (fun _ => Keeps now h.violate) fun _ => Overcounts p h := by
  have h_eq := h_keeps.violations_eq
  by_cases h_lt : r.violations + 1 < Width.bits32.size
  · -- the count has room for one more
    have h_run : violate.run p r = .ok () { r with violations := r.violations + 1 } := by
      rw [violate, Action.run_get_bind, Action.run_bind, Action.run_liftM,
        Checked.run_add_of_lt h_lt]
      rfl
    refine .ok h_run { h_keeps with violations_eq := ?_ }
    change r.violations + 1 = (h.violations + 1) % Width.bits32.size
    simp only [Width.size] at h_eq h_lt ⊢
    omega
  · -- the count is full: debug traps, and release begins again at zero
    cases p with
    | debug =>
      have h_run : violate.run .debug r = .error .addOverflow r := by
        rw [violate, Action.run_get_bind, Action.run_bind, Action.run_liftM]
        simp only [Checked.run, Checked.add, Checked.fit, h_lt, if_false]
      unfold Action.Ends
      rw [h_run]
      refine ⟨rfl, ?_⟩
      simp only [Width.size] at h_eq h_lt ⊢
      omega
    | release =>
      refine .ok rfl { h_keeps with violations_eq := ?_ }
      change (r.violations + 1) % Width.bits32.size = (h.violations + 1) % Width.bits32.size
      rw [h_eq, Nat.mod_add_mod]

/-- A rise is a violation unless the pin is an output and low. -/
theorem ends_rise (h_keeps : Keeps now h r) (h_pin : pin ∈ eligiblePins) :
    (rise now pin).Ends p r (fun _ => Keeps now (h.afterCall now (.setHigh pin))) fun _ =>
      Overcounts p h ∧ h.afterCall now (.setHigh pin) = h.violate := by
  rw [PinHistory.afterCall, if_pos h_pin]
  refine .get_bind ?_
  rw [h_keeps.state_eq]
  cases h_output : h.isOutput pin with
  | false =>
    -- the rise of a pin that is no output is a violation
    rw [PinHistory.state_of_not_output h_output, if_neg (fun h_and => Bool.noConfusion h_and.1)]
    exact h_keeps.ends_violate.mono (fun _ _ => id) fun _ h_over => ⟨h_over, rfl⟩
  | true =>
    cases h_rose : h.roseAt? pin with
    | some t =>
      -- so is a second rise
      rw [PinHistory.state_of_high h_output h_rose, if_neg (fun h_and => nomatch h_and.2)]
      exact h_keeps.ends_violate.mono (fun _ _ => id) fun _ h_over => ⟨h_over, rfl⟩
    | none =>
      -- a low output rises now
      rw [PinHistory.state_of_low h_output h_rose, if_pos ⟨rfl, rfl⟩,
        PinHistory.withRise_eq h_output]
      exact h_keeps.setState h_pin (some now) fun t h_t => Nat.le_of_eq (Option.some.inj h_t).symm

/-- A fall of a pin that is high completes a pulse. -/
theorem ends_fall (h_keeps : Keeps now h r) (h_now : now < Clock.instants)
    (h_pin : pin ∈ eligiblePins) :
    (fall now pin).Ends p r (fun _ => Keeps now (h.afterCall now (.setLow pin))) fun _ =>
      Overcounts p h ∧ h.afterCall now (.setLow pin) = h.violate := by
  rw [PinHistory.afterCall, if_pos h_pin]
  refine .get_bind ?_
  rw [h_keeps.state_eq]
  cases h_output : h.isOutput pin with
  | false =>
    -- the fall of a pin that is no output is a violation
    rw [PinHistory.state_of_not_output h_output, if_neg Bool.false_ne_true]
    exact h_keeps.ends_violate.mono (fun _ _ => id) fun _ h_over => ⟨h_over, rfl⟩
  | true =>
    rw [if_pos rfl]
    cases h_rose : h.roseAt? pin with
    | none =>
      -- a pin that is low stays low
      rw [PinHistory.state_of_low h_output h_rose]
      exact .pure h_keeps
    | some t =>
      rw [PinHistory.state_of_high h_output h_rose]
      -- the rise is in the past, so the pulse has a width
      have h_le : t ≤ now := (h_keeps.of_rose h_rose).2
      have h_fallen := h_keeps.setState h_pin none nofun
      rw [← PinHistory.withRise_eq h_output] at h_fallen
      have h_width : (Checked.sub .bits64 now t).run p = .ok (now - t) :=
        Checked.run_sub_of_le h_le h_now p
      refine .modify_bind ?_
      unfold Action.Ends
      rw [Action.run_bind, Action.run_liftM, h_width]
      exact h_fallen.record ⟨pin, t, now - t⟩

/-- **One call.** What the recorder keeps of the history it keeps after a call, unless it cannot
count a violation. -/
theorem ends_call (h_keeps : Keeps now h r) (h_now : now < Clock.instants) (k : PinCall) :
    (k.onBank now).Ends p r (fun _ => Keeps now (h.afterCall now k)) fun _ =>
      Overcounts p h ∧ h.afterCall now k = h.violate := by
  cases k with
  | configureOutput pin =>
    change Keeps now (h.afterCall now (.configureOutput pin))
      (if pin ∈ eligiblePins then r.setState pin .low else r)
    rw [PinHistory.afterCall]
    -- an eligible pin becomes a low output, even in the middle of a pulse
    by_cases h_pin : pin ∈ eligiblePins
    · rw [if_pos h_pin, if_pos h_pin]
      exact h_keeps.setState h_pin none nofun
    · rw [if_neg h_pin, if_neg h_pin]
      exact h_keeps
  | setHigh pin =>
    change (if pin ∈ eligiblePins then rise now pin else pure ()).Ends p r _ _
    refine .ite h_keeps.ends_rise fun h_pin => .pure ?_
    rw [PinHistory.afterCall, if_neg h_pin]
    exact h_keeps
  | setLow pin =>
    change (if pin ∈ eligiblePins then fall now pin else pure ()).Ends p r _ _
    refine .ite (h_keeps.ends_fall h_now) fun h_pin => .pure ?_
    rw [PinHistory.afterCall, if_neg h_pin]
    exact h_keeps

end Keeps

end PinRecorder

/-! ### Time -/

/-- A jump to a limit that is an instant ends at an instant. -/
theorem Clock.now_lt_of_run_advanceUntil {p : Profile} {c c' : Clock} {limit : Nat} {event : Bool}
    (h_now : c.now < instants) (h_limit : limit < instants)
    (h_run : (advanceUntil limit).run p c = .ok event c') : c'.now < instants := by
  -- the clock goes to an event before the limit, or to the limit
  have h_max : max c.now limit < instants := Nat.max_lt.2 ⟨h_now, h_limit⟩
  rw [advanceUntil, Action.run_get_bind, Action.run_liftM_bind_eq_ok_iff] at h_run
  obtain ⟨overflow?, -, h_run⟩ := h_run
  obtain ⟨compare?, -, h_run⟩ := Action.run_liftM_bind_eq_ok_iff.1 h_run
  cases h_next : earlier? overflow? compare? with
  | none =>
    rw [h_next] at h_run
    cases h_run
    exact h_max
  | some next =>
    simp only [h_next, Action.run_ite] at h_run
    by_cases h_le : next ≤ limit
    · rw [if_pos h_le] at h_run
      cases h_run
      exact Nat.lt_of_le_of_lt h_le h_limit
    · rw [if_neg h_le] at h_run
      cases h_run
      exact h_max

/-! ### Runs -/

/-- The histories of new recorded pins on a bench, and the bench after them. Time does not run
back. -/
inductive Recorded (p : Profile) (clock : Clock) (lag : Nat) :
    PinHistory → Bench PinRecorder → Prop where
  | new : Recorded p clock lag {} { clock, lag, pins := {} }
  | event {h : PinHistory} {b b' : Bench PinRecorder} (e : PinEvent)
    (h_run : Recorded p clock lag h b) (h_act : e.act.run p b = .ok () b')
    (h_time : b.clock.now ≤ b'.clock.now) : Recorded p clock lag (h.after b.clock.now e) b'

variable {p : Profile} {clock : Clock} {lag : Nat} {h : PinHistory} {b b' : Bench PinRecorder}

/-- The time fits, and the recorder on the bench has kept of the history what it is to keep. -/
structure Bench.Keeps (h : PinHistory) (b : Bench PinRecorder) : Prop where
  now_lt : b.clock.now < Clock.instants
  pins : b.pins.Keeps b.clock.now h

/-- Time passes on a bench, and nothing else happens. -/
theorem PinEvent.run_advance_eq_ok {limit : UInt64}
    (h_act : (advance limit).act.run p b = .ok () b') :
    ∃ event clock, (Clock.advanceUntil limit.toNat).run p b.clock = .ok event clock ∧
      b' = { b with clock } := by
  obtain ⟨event, b'', h_advance, h_pure⟩ := Action.run_bind_eq_ok_iff.1 h_act
  obtain ⟨clock, h_clock, rfl⟩ := Action.run_zoom_eq_ok_iff.1 h_advance
  exact ⟨event, clock, h_clock, (Action.run_pure_eq_ok_iff.1 h_pure).2.symm⟩

/-- A call on a bench takes no time. -/
theorem Bench.Keeps.ends_call (h_keeps : b.Keeps h) (k : PinCall) :
    (PinEvent.call k).act.Ends p b
      (fun _ b' => b'.Keeps (h.afterCall b.clock.now k) ∧ b'.clock = b.clock)
      fun _ => PinRecorder.Overcounts p h ∧ h.afterCall b.clock.now k = h.violate := by
  refine .get_bind (.zoom ((h_keeps.pins.ends_call h_keeps.now_lt k).mono ?_ ?_))
  · exact fun _ pins h_pins => ⟨⟨h_keeps.now_lt, h_pins⟩, rfl⟩
  · exact fun _ h_over => h_over

/-- **One event.** A bench that keeps a history keeps it with the event added, as long as time does
not run back. -/
theorem Bench.Keeps.act (h_keeps : b.Keeps h) {e : PinEvent} (h_act : e.act.run p b = .ok () b')
    (h_time : b.clock.now ≤ b'.clock.now) : b'.Keeps (h.after b.clock.now e) := by
  cases e with
  | call k => exact ((h_keeps.ends_call k).of_run h_act).1
  | clearPulses =>
    obtain rfl := Action.run_modify_eq_ok_iff.1 h_act
    exact ⟨h_keeps.now_lt, h_keeps.pins.clearPulses⟩
  | advance limit =>
    -- time goes on, so that all rises stay in the past
    obtain ⟨event, clock, h_advance, rfl⟩ := PinEvent.run_advance_eq_ok h_act
    have h_limit : limit.toNat < Clock.instants := limit.toNat_lt
    exact ⟨Clock.now_lt_of_run_advanceUntil h_keeps.now_lt h_limit h_advance,
      h_keeps.pins.mono h_time⟩

/-- **Any number of events.** What new recorded pins show after a sequence of events is what the
unbounded history of these events has. -/
theorem Recorded.keeps (h_now : clock.now < Clock.instants) (h_run : Recorded p clock lag h b) :
    b.Keeps h := by
  induction h_run with
  | new => exact ⟨h_now, .new _⟩
  | event e _ h_act h_time ih => exact ih.act h_act h_time

/-- Whatever happened, any call may come next, and time may pass as long as it lasts. -/
theorem Recorded.ends_act (h_now : clock.now < Clock.instants) (h_run : Recorded p clock lag h b)
    (e : PinEvent) (h_fits : ∀ limit, e = .advance limit → b.clock.Fits) :
    e.act.Ends p b (fun _ b' => Recorded p clock lag (h.after b.clock.now e) b') fun _ =>
      PinRecorder.Overcounts p h ∧ h.after b.clock.now e = h.violate := by
  have h_event : e.act.Ends p b (fun _ b' => b.clock.now ≤ b'.clock.now) fun _ =>
      PinRecorder.Overcounts p h ∧ h.after b.clock.now e = h.violate := by
    -- no event takes the time back, and only a call can trap
    cases e with
    | call k =>
      refine ((h_run.keeps h_now).ends_call k).mono (fun _ b' h_b' => ?_) fun _ => id
      exact Nat.le_of_eq (congrArg Clock.now h_b'.2).symm
    | clearPulses => exact Nat.le_refl _
    | advance limit =>
      have h_clock := h_fits limit rfl
      refine .bind (.zoom (.ok (Clock.run_advanceUntil_of_fits h_clock limit.toNat p) ?_))
        fun _ _ h_le => .pure h_le
      exact (Clock.passes_reach h_clock limit.toNat).now_le
  obtain ⟨h_ok, h_trap⟩ := Action.ends_iff.1 h_event
  exact Action.ends_iff.2 ⟨fun _ b' h_act => .event e h_run h_act (h_ok _ b' h_act), h_trap⟩

/-- **The history of recorded pins.** Whatever happened to recorded pins, the completed pulses of a
pin are those among the last 64 of the history since the record was cleared, oldest first, and the
last one is the last of these. Levels and outputs are those of the history, and its violations are
counted with 32 bits. Nothing traps but the call that makes one violation more than can be counted,
as long as time lasts. -/
theorem pulses_are_last_of_history (h_now : clock.now < Clock.instants)
    (h_run : Recorded p clock lag h b) :
    (∀ pin,
      b.pins.pulsesOn pin = (h.sinceCleared.rtake 64).filter (·.pin == pin) ∧
      b.pins.lastPulse? pin = ((h.sinceCleared.rtake 64).filter (·.pin == pin)).getLast? ∧
      b.pins.isHigh pin = (h.roseAt? pin).isSome ∧ b.pins.isOutput pin = h.isOutput pin) ∧
    b.pins.violations = h.violations % Width.bits32.size ∧
    ∀ e : PinEvent, (∀ limit, e = .advance limit → b.clock.Fits) →
      e.act.Ends p b (fun _ b' => Recorded p clock lag (h.after b.clock.now e) b') fun _ =>
        p = .debug ∧ Width.bits32.size ∣ h.violations + 1 ∧ h.after b.clock.now e = h.violate := by
  obtain ⟨-, h_keeps⟩ := h_run.keeps h_now
  have h_pulses (pin : Nat) :
      b.pins.pulsesOn pin = (h.sinceCleared.rtake 64).filter (·.pin == pin) := by
    rw [PinRecorder.pulsesOn, h_keeps.pulses_eq]
    rfl
  refine ⟨fun pin => ⟨h_pulses pin, ?_, h_keeps.isHigh_eq pin, h_keeps.isOutput_eq pin⟩,
    h_keeps.violations_eq, fun e h_fits => ?_⟩
  · rw [PinRecorder.lastPulse?, h_pulses]
  · -- what can trap is the count of violations alone
    refine (h_run.ends_act h_now e h_fits).mono (fun _ _ => id) fun _ h_over => ?_
    exact ⟨h_over.1.1, h_over.1.2, h_over.2⟩

/-- A pin rises before it is an output. Then it makes a pulse of 100 ticks, the record is cleared,
it rises again, another pin rises and is made an output while it is high, and the first pin falls 50
ticks after it rose, and the other one once more. The history since the record was cleared is one
pulse, and the record has it. -/
theorem pulses_are_last_of_history_cleared :
    ∃ (h : PinHistory) (b : Bench PinRecorder),
      (0 < Clock.instants ∧ Recorded .debug {} 0 h b) ∧
      h.completed = [⟨2, 0, 100⟩, ⟨2, 100, 50⟩] ∧ h.sinceCleared = [⟨2, 100, 50⟩] ∧
      b.pins.pulsesOn 2 = [⟨2, 100, 50⟩] ∧ b.pins.lastPulse? 3 = none ∧
      b.pins.isHigh 3 = false ∧ b.pins.isOutput 3 = true ∧ b.pins.violations = 1 := by
  -- a refused rise, a pulse that is cleared away, and the rise of one that is not
  have h_refused : Recorded .debug {} 0 _ _ := .event (.call (.setHigh 2)) .new rfl (by decide)
  have h_output := h_refused.event (.call (.configureOutput 2)) rfl (by decide)
  have h_rise := h_output.event (.call (.setHigh 2)) rfl (by decide)
  have h_later := h_rise.event (.advance 100) rfl (by decide)
  have h_pulse := h_later.event (.call (.setLow 2)) rfl (by decide)
  have h_cleared := h_pulse.event .clearPulses rfl (by decide)
  have h_again := h_cleared.event (.call (.setHigh 2)) rfl (by decide)
  -- pin 3 is raised and made an output once more, which ends its pulse unrecorded
  have h_other := h_again.event (.call (.configureOutput 3)) rfl (by decide)
  have h_high := h_other.event (.call (.setHigh 3)) rfl (by decide)
  have h_forgot := h_high.event (.call (.configureOutput 3)) rfl (by decide)
  have h_last := h_forgot.event (.advance 150) rfl (by decide)
  have h_fall := h_last.event (.call (.setLow 2)) rfl (by decide)
  have h_run := h_fall.event (.call (.setLow 3)) rfl (by decide)
  obtain ⟨h_pins, h_violations, -⟩ := pulses_are_last_of_history (by decide) h_run
  refine ⟨_, _, ⟨by decide, h_run⟩, rfl, rfl, (h_pins 2).1, (h_pins 3).2.1, ?_, ?_, h_violations⟩
  · exact (h_pins 3).2.2.1
  · exact (h_pins 3).2.2.2

end ServoPulse
