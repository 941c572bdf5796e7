import ServoPulse.Engine.Commands
import ServoPulse.Engine.Start
import ServoPulse.Engine.Stop
import ServoPulse.Proofs.Effects.Pulses

/-!
# Effects of the calls

What starting, commanding and stopping do to an engine on a simulated board, one statement
for each.

A start that is not refused may give the engine a new list (`Relisted`) and then launches
it, unless it runs already (`Engine.launched`). A command writes to one channel at most. A
stop of a running engine waits and then shuts the engine down (`run_stop_eq_ok`): its fuel
never runs out, since each wait brings the timeout nearer.
-/

namespace ServoPulse

/-- The states in which an action may leave `s`, returning or trapping. -/
def Action.EndsIn {σ α : Type} (x : Action σ α) (p : Profile) (s s' : σ) : Prop :=
  (∃ a, x.run p s = .ok a s') ∨ ∃ trap, x.run p s = .error trap s'

/-! ### Commands -/

/-- A command to one channel. -/
inductive Command where
  | targetTicks (servo ticks : Nat)
  | targetUs (servo us : Nat)
  | speed (servo limit : Nat)

namespace Command

/-- The servo that is commanded. -/
def servo : Command → Nat
  | targetTicks servo _ | targetUs servo _ | speed servo _ => servo

/-- What the command writes to the channel. -/
def write : Command → Channel → Channel
  | targetTicks _ ticks, c => c.aim (clampTicks ticks)
  | targetUs _ us, c => c.aim (clampTicks (usToTicks us))
  | speed _ limit, c => { c with speed := limit }

/-- Carries the command out. -/
def exec {β : Type} : Command → Action (Engine β) Unit
  | targetTicks servo ticks => Engine.setTargetTicks servo ticks
  | targetUs servo us => Engine.setTargetUs servo us
  | speed servo limit => Engine.setSpeed servo limit

@[simp] theorem write_pin (k : Command) (c : Channel) : (k.write c).pin = c.pin := by
  cases k <;> rfl

end Command

namespace ChannelTable

theorem active_modify (t : ChannelTable) (n : Nat) (f : Channel → Channel) :
    (t.modify n f).active = t.active.modify n f := by
  apply List.ext_getElem?
  intro m
  rw [getElem?_active, get?_modify, List.getElem?_modify, getElem?_active]
  split <;> simp

/-- A write that keeps the pin of the channel keeps all of them. -/
theorem map_pin_modify {t : ChannelTable} {n : Nat} {f : Channel → Channel}
    (h : ∀ c, (f c).pin = c.pin) :
    (t.modify n f).active.map Channel.pin = t.active.map Channel.pin := by
  apply List.ext_getElem?
  intro m
  rw [active_modify, List.getElem?_map, List.getElem?_map, List.getElem?_modify]
  -- a change of the entry changes only that entry, and not its pin
  cases t.active[m]? with
  | none => rfl
  | some c =>
    by_cases hnm : n = m
    · simp [hnm, h]
    · simp [hnm]

theorem mem_active_modify {t : ChannelTable} {n : Nat} {f : Channel → Channel} {c : Channel}
    (h : c ∈ (t.modify n f).active) : c ∈ t.active ∨ ∃ d ∈ t.active, c = f d := by
  rw [active_modify, List.mem_iff_getElem?] at h
  obtain ⟨m, hm⟩ := h
  rw [List.getElem?_modify, Option.map_eq_map, Option.map_eq_some_iff] at hm
  obtain ⟨d, hd, rfl⟩ := hm
  have h_mem := List.mem_of_getElem? hd
  by_cases hnm : n = m
  · -- the entry that was written; the others are as they were
    exact .inr ⟨d, h_mem, if_pos hnm⟩
  · exact .inl (by rwa [if_neg hnm])

theorem map_pin_assign {pins : List Nat} (h : pins.length ≤ maxServos) :
    (assign pins).active.map Channel.pin = pins := by
  rw [active_assign h, List.map_map]
  exact List.map_id pins

theorem map_pin_step (t : ChannelTable) :
    t.step.active.map Channel.pin = t.active.map Channel.pin := by
  rw [active_step, List.map_map]
  rfl

end ChannelTable

namespace Engine

section Command

variable {β : Type} {p : Profile} {e e' : Engine β}

theorem refreshMoving_eq (servo : Nat) (e : Engine β) :
    ∃ moving, e.refreshMoving servo = { e with moving } := by
  unfold refreshMoving
  split
  · exact ⟨true, rfl⟩
  · split
    · exact ⟨e.moving, rfl⟩
    · exact ⟨e.table.anyMoving, rfl⟩

/-- Looking a servo up leaves the engine alone, and the change is made if it is found. -/
theorem endsIn_servo?_iff {servo : Nat} {f : Engine β → Engine β} :
    (do if (← (← get).servo? servo).isSome then modify f : Action (Engine β) Unit).EndsIn p e e' ↔
      e' = match (e.servo? servo).run p with
        | .ok channel? => if channel?.isSome then f e else e
        | .error _ => e := by
  unfold Action.EndsIn
  rw [Action.run_get_bind, Action.run_bind, Action.run_liftM]
  -- the servo is looked for, and the change is made when it is there
  cases (e.servo? servo).run p with
  | ok channel? =>
    simp only [Action.run_ite]
    split
    · simp [eq_comm]
    · simp [eq_comm]
  | error trap =>
    -- a trap of the look-up leaves the engine as it was
    simp [eq_comm]

theorem endsIn_servo? {servo : Nat} {f : Engine β → Engine β}
    (h : (do if (← (← get).servo? servo).isSome then modify f : Action (Engine β) Unit).EndsIn
      p e e') : e' = e ∨ e' = f e := by
  rw [endsIn_servo?_iff.1 h]
  cases (e.servo? servo).run p with
  | ok channel? => exact (ite_eq_or_eq _ _ _).symm
  | error trap => exact .inl rfl

/-- **Commands.** A command writes to its channel, or changes nothing. -/
theorem endsIn_exec {k : Command} (h : k.exec.EndsIn p e e') :
    e' = e ∨ ∃ moving, e' = { e with table := e.table.modify k.servo k.write, moving } := by
  cases k with
  | targetTicks servo ticks =>
    -- both targets change the table and then what is said of motion
    rw [Command.exec, setTargetTicks] at h
    rcases endsIn_servo? h with h_eq | rfl
    · exact .inl h_eq
    · exact .inr (refreshMoving_eq servo _)
  | targetUs servo us =>
    rw [Command.exec, setTargetUs, setTargetTicks] at h
    rcases endsIn_servo? h with h_eq | rfl
    · exact .inl h_eq
    · exact .inr (refreshMoving_eq servo _)
  | speed servo limit =>
    -- a new speed moves nothing by itself
    rw [Command.exec, setSpeed] at h
    rcases endsIn_servo? h with h_eq | rfl
    · exact .inl h_eq
    · exact .inr ⟨e.moving, rfl⟩

end Command

variable {P : Type} [PinBank P] {p : Profile} {e e' : Engine (Bench P)}

/-! ### Starting -/

theorem checkEach_ok {eligible seen pins : List Nat} (h : checkEach eligible seen pins = .ok ()) :
    pins.Nodup ∧ ∀ pin ∈ pins, pin ∈ eligible ∧ pin ∉ seen := by
  -- induction on the list, with the pins that were seen before it
  induction pins generalizing seen with
  | nil => simp
  | cons pin pins ih =>
    rw [checkEach] at h
    by_cases h_eligible : pin ∈ eligible
    -- a pin that is not eligible fails the check
    swap
    · rw [if_pos h_eligible] at h
      cases h
    -- so does one that is listed a second time
    by_cases h_seen : pin ∈ seen
    · rw [if_neg (not_not_intro h_eligible), if_pos h_seen] at h
      cases h
    rw [if_neg (not_not_intro h_eligible), if_neg h_seen] at h
    obtain ⟨h_nodup, h_rest⟩ := ih h
    -- the pin was seen when the rest was checked
    have h_not : pin ∉ pins := fun h_mem => (h_rest pin h_mem).2 (by simp)
    refine ⟨List.nodup_cons.2 ⟨h_not, h_nodup⟩, fun q hq => ?_⟩
    rcases List.mem_cons.1 hq with rfl | hq
    · exact ⟨h_eligible, h_seen⟩
    · exact ⟨(h_rest q hq).1, fun h_mem => (h_rest q hq).2 (by simp [h_mem])⟩

theorem checkPins_ok {eligible pins : List Nat} (h : checkPins eligible pins = .ok ()) :
    pins.length ≤ maxServos ∧ pins.Nodup ∧ ∀ pin ∈ pins, pin ∈ eligible := by
  rw [checkPins] at h
  by_cases h_long : maxServos < pins.length
  · rw [if_pos h_long] at h
    cases h
  · rw [if_neg h_long] at h
    obtain ⟨h_nodup, h_each⟩ := checkEach_ok h
    exact ⟨Nat.le_of_not_lt h_long, h_nodup, fun pin h_pin => (h_each pin h_pin).1⟩

theorem checkStart_ok {β : Type} [Board β] {e : Engine β} {pins? : Option (List Nat)}
    (h : e.checkStart pins? = .ok ()) :
    e.config.validate = .ok () ∧
      ∀ pins ∈ pins?, checkPins (Board.eligible e.board) pins = .ok () := by
  unfold checkStart at h
  cases h_config : e.config.validate with
  | error error =>
    -- a configuration that fails is not started, whatever the list
    rw [h_config] at h
    cases h
  | ok _ =>
    rw [h_config] at h
    refine ⟨rfl, fun pins h_pins => ?_⟩
    rw [Option.mem_def.1 h_pins] at h
    exact h

/-- The engine with its channels replaced by channels at rest on `pins`. -/
def relisted (e : Engine (Bench P)) (pins : List Nat) : Engine (Bench P) :=
  { e.withPins (PinBank.prepareAll pins e.pins) with table := .assign pins, moving := false }

/-- What a start that is not refused does to the channels: nothing when it resumes, and
otherwise it puts them on a list of pins that the bank can drive. -/
inductive Relisted : Engine (Bench P) → Engine (Bench P) → Prop
  | resume {e : Engine (Bench P)} (moving : Bool) : Relisted e { e with moving }
  | list {e : Engine (Bench P)} {pins : List Nat} (h_length : pins.length ≤ maxServos)
      (h_nodup : pins.Nodup) (h_eligible : ∀ pin ∈ pins, pin ∈ PinBank.eligible e.pins) :
      Relisted e (e.relisted pins)

/-- The engine with its timer started now, in the last turn of a period. -/
def launched (e : Engine (Bench P)) (starts : Nat) : Engine (Bench P) :=
  { e.withClock
      { e.clock with
        origin := e.clock.now, running := true, compare := none, overflowPending := false,
        comparePending := false, starts } with
    queue := {}, wrap := e.config.wrapsPerPeriod.toNat - 1, phase := .idle, started := true }

theorem run_launch_eq_ok (h : launch.run p e = .ok () e') :
    ∃ starts, e' = e.launched starts := by
  rw [launch] at h
  obtain ⟨⟨⟩, t, h_start, h⟩ := Action.run_bind_eq_ok_iff.1 h
  obtain rfl := Action.run_modify_eq_ok_iff.1 h
  -- only the timer and the fields of the engine change; the pins are prepared already
  rw [startPulses, Action.run_modify_bind] at h_start
  obtain ⟨b, h_board, rfl⟩ := Action.run_zoom_eq_ok_iff.1 h_start
  obtain ⟨clock, h_clock, rfl⟩ := Action.run_zoom_eq_ok_iff.1 h_board
  rw [Clock.start, Action.run_modify_bind, Action.run_get_bind] at h_clock
  obtain ⟨starts, -, h_clock⟩ := Action.run_liftM_bind_eq_ok_iff.1 h_clock
  obtain rfl := Action.run_modify_eq_ok_iff.1 h_clock
  exact ⟨starts, rfl⟩

theorem run_prepareEach (channels : List Channel) :
    Action.run (channels.forM fun c => (do
      unless Board.isHigh (← get).board c.pin do changeBoard (Board.configureOutput c.pin)
        : Action (Engine (Bench P)) Unit)) p e
      = .ok () (e.withPins (PinBank.prepareAll (channels.map Channel.pin) e.pins)) := by
  -- induction on the channels, one pin after the other
  induction channels generalizing e with
  | nil => rfl
  | cons c channels ih =>
    refine Action.run_forM_cons_eq_ok_iff.2
      ⟨e.withPins (if PinBank.isHigh e.pins c.pin then e.pins
        else PinBank.configureOutput c.pin e.pins), ?_, ?_⟩
    · -- a pin that is high keeps its level, any other becomes a low output
      rw [Action.run_get_bind]
      change Action.run (if PinBank.isHigh e.pins c.pin = true then _ else _) p e = _
      split <;> rfl
    · exact ih

theorem run_reconfigure {pins : List Nat} (h_length : pins.length ≤ maxServos) :
    (reconfigure pins).run p e = .ok () (e.relisted pins) := by
  rw [reconfigure, Action.run_modify_bind, Action.run_bind, configureOutputs, Action.run_get_bind,
    run_prepareEach, ChannelTable.map_pin_assign h_length]
  rfl

/-- The engine after a start that is not refused. A timer that stood still is started, for the
`starts`-th time. -/
def afterStart (e : Engine (Bench P)) (pins? : Option (List Nat)) (starts : Nat) :
    Engine (Bench P) :=
  match e.started, pins? with
  | true, none => e
  | true, some pins => e.relisted pins
  | false, none => { e with moving := e.table.anyMoving }.launched starts
  | false, some pins => (e.relisted pins).launched starts

/-- **Starting.** A start is refused and changes nothing, or it does what it is asked for. -/
theorem run_start_eq_afterStart {pins? : Option (List Nat)} {r : Except StartError Unit}
    (h : (start pins?).run p e = .ok r e') :
    (∃ error, e.checkStart pins? = .error error ∧ r = .error error) ∧ e' = e ∨
      e.checkStart pins? = .ok () ∧ r = .ok () ∧ ∃ starts, e' = e.afterStart pins? starts := by
  rw [start, Action.run_get_bind] at h
  cases h_check : e.checkStart pins? with
  | error error =>
    -- a check that fails is the whole call
    rw [h_check] at h
    obtain ⟨rfl, rfl⟩ := Action.run_pure_eq_ok_iff.1 h
    exact .inl ⟨⟨error, rfl, rfl⟩, rfl⟩
  | ok _ =>
    rw [h_check] at h
    unfold afterStart
    -- the list is kept or replaced, and the engine was off or on: four cases, two of which launch
    cases pins? with
    | none =>
      cases h_started : e.started with
      | true =>
        simp only [h_started, if_true] at h
        obtain ⟨rfl, rfl⟩ := Action.run_pure_eq_ok_iff.1 h
        exact .inr ⟨rfl, rfl, 0, rfl⟩
      | false =>
        simp only [h_started, Bool.false_eq_true, if_false, Action.run_modify_bind] at h
        obtain ⟨⟨⟩, t, h_launch, h⟩ := Action.run_bind_eq_ok_iff.1 h
        obtain ⟨rfl, rfl⟩ := Action.run_pure_eq_ok_iff.1 h
        exact .inr ⟨rfl, rfl, run_launch_eq_ok h_launch⟩
    | some pins =>
      -- the list has passed the check, so there is a channel for each of its pins
      have h_length := (checkPins_ok ((checkStart_ok h_check).2 pins rfl)).1
      simp only [Action.run_bind, run_reconfigure h_length] at h
      cases h_started : e.started with
      | true =>
        simp only [h_started, if_true] at h
        obtain ⟨rfl, rfl⟩ := Action.run_pure_eq_ok_iff.1 h
        exact .inr ⟨rfl, rfl, 0, rfl⟩
      | false =>
        simp only [h_started, Bool.false_eq_true, if_false] at h
        obtain ⟨⟨⟩, t, h_launch, h⟩ := Action.run_bind_eq_ok_iff.1 h
        obtain ⟨rfl, rfl⟩ := Action.run_pure_eq_ok_iff.1 h
        exact .inr ⟨rfl, rfl, run_launch_eq_ok h_launch⟩

/-- A start that is not refused has a valid configuration, replaces the channels by those asked
for, and launches the engine if it was not running. -/
theorem run_start_eq_ok {pins? : Option (List Nat)} {r : Except StartError Unit}
    (h : (start pins?).run p e = .ok r e') :
    (∃ error, r = .error error) ∧ e' = e ∨
      r = .ok () ∧ e.config.validate = .ok () ∧ ∃ e₁, Relisted e e₁ ∧
        (e.started = true ∧ e' = e₁ ∨ e.started = false ∧ ∃ starts, e' = e₁.launched starts) := by
  rcases run_start_eq_afterStart h with ⟨⟨error, -, rfl⟩, rfl⟩ | ⟨h_check, rfl, starts, rfl⟩
  · exact .inl ⟨⟨error, rfl⟩, rfl⟩
  obtain ⟨h_config, h_pins⟩ := checkStart_ok h_check
  refine .inr ⟨rfl, h_config, ?_⟩
  unfold afterStart
  -- the same four cases, with what the check says of the list
  cases pins? with
  | none =>
    cases h_started : e.started with
    | true => exact ⟨e, .resume e.moving, .inl ⟨rfl, rfl⟩⟩
    | false => exact ⟨_, .resume e.table.anyMoving, .inr ⟨rfl, starts, rfl⟩⟩
  | some pins =>
    obtain ⟨h_length, h_nodup, h_eligible⟩ := checkPins_ok (h_pins pins rfl)
    have h_list : Relisted e (e.relisted pins) := .list h_length h_nodup h_eligible
    cases h_started : e.started with
    | true => exact ⟨_, h_list, .inl ⟨rfl, rfl⟩⟩
    | false => exact ⟨_, h_list, .inr ⟨rfl, starts, rfl⟩⟩

/-! ### Stopping -/

/-- The engine shut down, with its bank in the state `pins`. -/
def down (e : Engine (Bench P)) (pins : P) : Engine (Bench P) :=
  { (e.withPins pins).withClock e.clock.stop with
    queue := {}, phase := .halted, started := false, moving := e.table.anyMoving }

theorem run_shutDown_eq_ok (h : shutDown.run p e = .ok () e') :
    ∃ pins, (PinBank.driveAll false e.clock.now (e.table.active.map Channel.pin)).run p e.pins
      = .ok () pins ∧ e' = e.down pins := by
  rw [shutDown] at h
  obtain ⟨⟨⟩, t, h_halt, h⟩ := Action.run_bind_eq_ok_iff.1 h
  obtain rfl := Action.run_modify_eq_ok_iff.1 h
  -- the halt lowers the pins of the table; all other writes are to fields of the engine
  rw [halt, changeBoard, Action.run_modify_bind, Action.run_modify_bind, Action.run_get_bind]
    at h_halt
  obtain ⟨⟨⟩, u, h_lower, h_halt⟩ := Action.run_bind_eq_ok_iff.1 h_halt
  obtain rfl := Action.run_modify_eq_ok_iff.1 h_halt
  obtain ⟨pins, h_pins, rfl⟩ := run_lowerEach_eq_ok h_lower
  exact ⟨pins, h_pins, rfl⟩

section Wait

variable {R : Engine (Bench P) → Engine (Bench P) → Prop} [IsPreorder _ R]
  {wait : Nat → Action (Engine (Bench P)) Unit} {report : StopReport}

/-- Waiting ends in a shutdown, and the stop is forced when a pulse is in flight then. -/
theorem run_awaitFalls_eq_ok (h_wait : ∀ k, Action.Keeps R p (wait k))
    {poll timeout fuel polls waited : Nat} (h_poll : 0 < poll)
    (h_timeout : timeout ≤ Width.bits32.last) (h_fuel : 0 < fuel)
    (h_enough : timeout < fuel + waited)
    (h : (awaitFalls wait poll timeout fuel polls waited).run p e = .ok report e') :
    ∃ e₁, R e e₁ ∧ shutDown.run p e₁ = .ok () e' ∧ report.forced = e₁.pulseInFlight := by
  -- induction on the fuel, which outlasts the timeout and so never runs out
  induction fuel generalizing e polls waited with
  | zero => exact absurd h_fuel (Nat.lt_irrefl 0)
  | succ fuel ih =>
    rw [awaitFalls, Action.run_get_bind] at h
    -- each wait brings the timeout nearer by as much as it costs fuel, or more
    by_cases h_go : e.pulseInFlight = true ∧ waited < timeout
    · rw [if_pos h_go] at h
      obtain ⟨⟨⟩, t, h_first, h⟩ := Action.run_bind_eq_ok_iff.1 h
      have h_next : timeout < fuel + addWait waited poll := by
        have h_lt := h_go.2
        rw [addWait]
        omega
      obtain ⟨e₁, h_R, h_down⟩ := ih (by omega) h_next h
      exact ⟨e₁, IsTrans.trans _ _ _ (h_wait polls h_first) h_R, h_down⟩
    · -- the last look: no pulse is left, or the time is up
      rw [if_neg h_go] at h
      obtain ⟨⟨⟩, t, h_down, h⟩ := Action.run_bind_eq_ok_iff.1 h
      obtain ⟨rfl, rfl⟩ := Action.run_pure_eq_ok_iff.1 h
      exact ⟨e, Std.Refl.refl e, h_down, rfl⟩

/-- **Stopping.** A stop leaves an engine that is not running alone, and shuts a running one
down after some waits. -/
theorem run_stop_eq_ok (h_wait : ∀ k, Action.Keeps R p (wait k))
    (h_valid : e.started = true → e.config.validate = .ok ())
    (h : (stop wait).run p e = .ok report e') :
    e.started = false ∧ report.forced = false ∧ e' = e ∨
      e.started = true ∧
        ∃ e₁, R e e₁ ∧ shutDown.run p e₁ = .ok () e' ∧ report.forced = e₁.pulseInFlight := by
  rw [stop, Action.run_get_bind] at h
  cases h_started : e.started with
  | true =>
    rw [h_started] at h
    -- the configuration is valid, so a wait takes time
    have h_timeout : e.config.stopTimeoutUs.toNat ≤ Width.bits32.last :=
      Nat.le_of_lt_succ e.config.stopTimeoutUs.toNat_lt
    have h_poll : 0 < e.config.stopPollUs.toNat :=
      ((Config.validate_eq_ok_iff _).1 (h_valid h_started)).2.2
    exact .inr ⟨rfl, run_awaitFalls_eq_ok h_wait h_poll h_timeout (by omega) (by omega) h⟩
  | false =>
    rw [h_started] at h
    obtain ⟨rfl, rfl⟩ := Action.run_pure_eq_ok_iff.1 h
    exact .inl ⟨rfl, rfl, rfl⟩

omit [IsPreorder (Engine (Bench P)) R] in
/-- A stop with no pulse in flight does not wait. -/
theorem run_stop_of_shutDown (h_on : e.started = true) (h_flight : e.pulseInFlight = false)
    (h : shutDown.run p e = .ok () e') : (stop wait).run p e = .ok ⟨0, false⟩ e' := by
  rw [stop, Action.run_get_bind, if_pos h_on]
  rw [awaitFalls, Action.run_get_bind, h_flight]
  exact Action.run_bind_eq_ok_iff.2 ⟨⟨⟩, e', h, rfl⟩

end Wait

end Engine

end ServoPulse
