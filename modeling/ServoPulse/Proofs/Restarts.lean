import ServoPulse.Proofs.Epochs
import ServoPulse.Proofs.Logs
import ServoPulse.Proofs.PulseSchedule
import ServoPulse.Proofs.Scripts
import ServoPulse.Proofs.SoundTable

/-!
# What survives a stop

Nothing but the channels does. An engine that was stopped and is resumed is, counted from there
(`Engine.Since`), a new engine with the same channels on pins that are all low
(`Engine.since_start`), and so it stays whatever is done to it (`Engine.Since.performs`). Two
engines with the same channels behave alike from then on, whatever they did before
(`Engine.alike_after_restart`).

Three facts about a stopped engine carry this (`Engine.Rested`): it is orderly, so that no fall is
pending and every pin is low; its table is sound, and so known by the configured channels; and the
pulses that its pins have kept are no more than there is room for. An engine that is refused at the
restart was refused at every start before, and nothing but time has gone by
(`Engine.exists_fresh_of_steps`).
-/

namespace ServoPulse

namespace Engine

variable {p : Profile} {z : Epoch} {e e' t : Engine (Bench (Scope PinRecorder))}

/-! ### Scripts since an epoch -/

theorem tracks_since_idle (x : Idle) :
    Action.Tracks (Since z) .debug (· = .debug) x.act x.act := by
  have h_jump (limit : Nat) := Clock.tracks_delayed_advanceUntil (s := z.time) limit
  -- time passes on both clocks alike, and the interrupts on the way do the same
  cases x with
  | advance ticks =>
    refine .bind (tracks_since_after_bind ticks fun limit => ?_) fun _ => .pure ()
    exact tracks_since_onClock (h_jump limit)
  | run ticks =>
    refine tracks_since_after_bind ticks fun limit => .repeatWhile ?_ _
    refine .bind (tracks_since_onClock (h_jump limit)) fun event => ?_
    exact .ite (.bind tracks_since_interrupt fun _ => .pure _) (.pure _)
  | pass ticks =>
    refine tracks_since_after_bind ticks fun limit => ?_
    exact tracks_since_onClock (.repeatWhile (h_jump limit) _)
  | interrupt => exact tracks_since_interrupt

theorem tracks_since_stopBy (waits : Nat → List Idle) :
    Action.Tracks (Since z) .debug (· = .debug) (stopBy waits) (stopBy waits) := by
  refine tracks_stop tracks_since_shutDown (fun k => .forM fun x _ => tracks_since_idle x) ?_
  rintro e _ ⟨u, ⟨c, -, rfl⟩, rfl⟩
  exact ⟨rfl, rfl, rfl⟩

/-- The engine since an epoch, after a call. -/
def Call.since (p : Profile) (t : Engine (Bench (Scope PinRecorder))) :
    Call → Engine (Bench (Scope PinRecorder))
  | idle x => x.act.final .debug t
  | start pins? => match t.checkStart pins? with
    | .error _ => t
    | .ok () => t.afterStart pins? 0
  | command k => k.exec.final p t
  | stop waits => (stopBy waits).final .debug t

namespace Since

theorem idle {α : Type} {x : Action (Engine (Bench (Scope PinRecorder))) α} {a : α}
    (h : Since z e t) (h_tracks : Action.Tracks (Since z) .debug (· = .debug) x x)
    (h_run : x.run .debug e = .ok a e') : Since z e' (x.final .debug t) := by
  obtain ⟨t', h_all, h_since⟩ := h_tracks h h_run
  have h_end : x.EndsIn .debug t t' := .inl ⟨a, h_all .debug rfl⟩
  rwa [h_end.final_eq]

theorem command {k : Command} (h : Since z e t) (h_run : k.exec.EndsIn p e e') :
    Since z e' (k.exec.final p t) := by
  -- a command looks neither at the board nor at the count of periods, and traps from both or none
  obtain ⟨_, ⟨c, h_board, rfl⟩, rfl⟩ := h
  rw [(endsIn_exec_recount (endsIn_exec_onto h_run c) _).final_eq]
  refine ⟨_, ⟨c, ?_, rfl⟩, rfl⟩
  -- the command changed nothing, or positions and speeds only
  rcases endsIn_exec h_run with rfl | ⟨moving, rfl⟩
  · exact h_board
  · refine h_board.of_outputs fun pin h_pin => h_board.pins.pins.output pin ?_
    rwa [OnPin, ChannelTable.map_pin_modify k.write_pin] at h_pin

/-- The channels are put on the same pins. -/
theorem relisted {pins : List Nat} (h : Since z e t) (h_length : pins.length ≤ maxServos)
    (h_eligible : ∀ pin ∈ pins, pin ∈ PinBank.eligible e.pins) :
    Since z (e.relisted pins) (t.relisted pins) := by
  obtain ⟨_, ⟨c, h_board, rfl⟩, rfl⟩ := h
  have h_board' : Bench.Since z e.OnPin (e.relisted pins).board
      { c with pins := PinBank.prepareAll pins c.pins } :=
    -- the boards agree but for the outputs, which are prepared alike
    ⟨h_board.clock, h_board.lag_eq, h_board.pins.prepareAll pins⟩
  refine ⟨_, ⟨_, h_board'.of_outputs fun pin h_pin => ?_, rfl⟩, rfl⟩
  -- the pins of the new channels are the ones that were just made outputs
  change pin ∈ (ChannelTable.assign pins).active.map Channel.pin at h_pin
  rw [ChannelTable.map_pin_assign h_length] at h_pin
  exact ((PinBank.prepareAll_levels h_eligible).2.1 pin).2 (.inl h_pin)

theorem launched (h : Since z e t) (starts starts' : Nat) :
    Since z (e.launched starts) (t.launched starts') := by
  obtain ⟨_, ⟨c, h_board, rfl⟩, rfl⟩ := h
  have h_now := h_board.clock.now_eq
  have h_board' : Bench.Since z e.OnPin (e.launched starts).board
      ((e.onto c).launched starts').board :=
    ⟨⟨h_now, fun _ => h_now, rfl, rfl, rfl, rfl⟩, h_board.lag_eq, h_board.pins⟩
  exact ⟨_, ⟨_, h_board', rfl⟩, rfl⟩

/-- **Starts.** Both engines are started, or both are refused. How often the timer was started
before is not counted from the epoch, and nothing depends on it. -/
theorem start {pins? : Option (List Nat)} {r : Except StartError Unit} (h : Since z e t)
    (h_run : (Engine.start pins?).run p e = .ok r e') :
    Since z e' (Call.since p t (.start pins?)) := by
  -- the check looks at the configuration and the list, which are the same
  have h_same : t.checkStart pins? = e.checkStart pins? ∧ t.started = e.started := by
    obtain ⟨_, ⟨c, -, rfl⟩, rfl⟩ := h
    exact ⟨rfl, rfl⟩
  change Since z e' (match t.checkStart pins? with
    | .error _ => t
    | .ok () => t.afterStart pins? 0)
  rw [h_same.1]
  -- the start was refused by both, or it went through in both
  rcases run_start_eq_afterStart h_run with ⟨⟨error, h_error, -⟩, rfl⟩ | ⟨h_ok, -, starts, rfl⟩
  · rw [h_error]
    exact h
  rw [h_ok]
  change Since z (e.afterStart pins? starts) (t.afterStart pins? 0)
  unfold afterStart
  rw [h_same.2]
  cases pins? with
  | none =>
    -- the one thing that is looked up again is whether a channel is moving
    have h_look : Since z { e with moving := e.table.anyMoving }
        { t with moving := t.table.anyMoving } := by
      obtain ⟨_, ⟨c, h_board, rfl⟩, rfl⟩ := h
      exact ⟨_, ⟨c, h_board, rfl⟩, rfl⟩
    cases e.started with
    | true =>
      -- running already, the start has no effect
      exact h
    | false => exact h_look.launched starts 0
  | some pins =>
    obtain ⟨h_length, -, h_eligible⟩ := checkPins_ok ((checkStart_ok h_ok).2 pins rfl)
    have h_list := h.relisted h_length h_eligible
    cases e.started with
    | true =>
      -- running already, the engine has new channels and goes on
      exact h_list
    | false => exact h_list.launched starts 0

/-- **Calls.** What a call makes of the second engine does not depend on the first one. -/
theorem call {c : Call} (h : Since z e t) (h_leads : c.Leads p e e') :
    Since z e' (c.since p t) := by
  cases h_leads with
  | idle h_run => exact h.idle (tracks_since_idle _) (h_run .debug)
  | start h_run => exact h.start h_run
  | command h_run => exact h.command h_run
  | stop h_run => exact h.idle (tracks_since_stopBy _) (h_run .debug)

theorem performs {calls : List Call} (h : Since z e t) (h_calls : Performs p calls e e') :
    Since z e' (calls.foldl (Call.since p) t) := by
  induction h_calls generalizing t with
  | nil => exact h
  | cons h_leads _ ih => exact ih (h.call h_leads)

end Since

/-! ### Stopped engines -/

section Stopped

variable {P : Type} [PinBank P] {config : Config} {lag now : Nat} {pins : P}
  {e e' : Engine (Bench P)}

theorem event_of_moment (h : Moment e e') : Event p e e' := by
  cases h with
  | advance h =>
    obtain ⟨limit, clock, -, rfl⟩ := run_advance_eq_ok (h p)
    exact .between (.board rfl)
  | interrupt h => exact .between (.interrupt (.inl ⟨_, h p⟩))

/-- A run in which no stop gives up waiting is a run of an engine on any board. -/
theorem events_of_steps [LawfulPinBank P] (h_ready : Prepared e) (h : Steps p false e e') :
    Events p e e' := by
  induction h with
  | refl => exact .refl
  | @tail t t' h_before h_last ih =>
    refine ih.trans ?_
    cases h_last with
    | moment h => exact .single (event_of_moment h)
    | start h => exact .single (.start h)
    | command h => exact .single (.command h)
    | stop h_wait h h_cuts =>
      -- the one step that has to be taken apart, into its waits and its shutdown
      have h_valid := ((Prepared.stable (p := p) false).steps h_ready h_before).valid
      have h_forced := Bool.eq_false_iff.2 fun h_cut => Bool.noConfusion (h_cuts h_cut)
      rcases run_stop_of_not_forced h_wait h_valid h_forced h with
        rfl | ⟨u, h_moments, h_on, h_flight, h_down⟩
      · exact .refl
      -- the stop finds no pulse in flight when it has waited, as one that need not wait does
      have h_stop : (stop fun _ => pure ()).run p u = .ok ⟨0, false⟩ t' :=
        run_stop_of_shutDown h_on h_flight h_down
      refine .tail (Relation.ReflTransGen.mono (fun _ _ => event_of_moment) _ _ h_moments)
        (.stop (fun _ s s' h_end => ?_) (.inl ⟨_, h_stop⟩))
      obtain ⟨_, ⟨⟩⟩ | ⟨_, ⟨⟩⟩ := h_end
      exact .refl

/-- An engine that cannot run stays a new engine, and only its clock moves. -/
theorem exists_fresh_of_steps {cuts : Bool} (h_invalid : config.validate ≠ .ok ())
    (h : Steps p cuts (fresh config lag now pins) e) : ∃ now', e = fresh config lag now' pins := by
  -- induction on the steps: no start passes the check, so the engine stays as it was built
  induction h with
  | refl => exact ⟨now, rfl⟩
  | tail _ h_last ih =>
    obtain ⟨now', rfl⟩ := ih
    cases h_last with
    | moment h =>
      cases h with
      | advance h =>
        obtain ⟨limit, clock, h_clock, rfl⟩ := run_advance_eq_ok (h .debug)
        exact (exists_fresh_of_advanceUntil h_clock).2
      | interrupt h =>
        -- a halted engine serves nothing
        rcases run_interrupt_eq_ok (h .debug) with ⟨-, rfl⟩ | ⟨h_phase, -⟩ | ⟨h_phase, -⟩
        · exact ⟨now', rfl⟩
        · exact absurd rfl h_phase
        · exact absurd rfl h_phase
    | start h =>
      rcases run_start_eq_ok h with ⟨-, rfl⟩ | ⟨-, h_valid, -⟩
      · exact ⟨now', rfl⟩
      · exact absurd h_valid h_invalid
    | command h => exact ⟨now', eq_of_exec_of_none h rfl⟩
    | stop h_wait h =>
      -- a stop finds an engine that is off
      rcases run_stop_eq_ok h_wait (fun h_on => Bool.noConfusion h_on) h with
        ⟨-, -, rfl⟩ | ⟨h_on, -⟩
      · exact ⟨now', rfl⟩
      · exact Bool.noConfusion h_on

end Stopped

end Engine

/-- A recorder keeps no more pulses than it has room for. -/
theorem PinRecorder.length_pulses_of_drive {p : Profile} {level : Bool} {now pin : Nat}
    {r r' : PinRecorder} (h : r.pulses.length ≤ capacity)
    (h_run : (PinBank.drive level now pin).run p r = .ok () r') : r'.pulses.length ≤ capacity := by
  -- a violation changes the count and records no pulse
  have h_violate : Action.Ends p violate r (fun _ r' => r'.pulses.length ≤ capacity)
      fun _ => True := .get_bind (.liftM_bind (fun _ => h) trivial)
  have h_ends : Action.Ends p (PinBank.drive level now pin) r
      (fun _ r' => r'.pulses.length ≤ capacity) fun _ => True := by
    rw [drive_eq]
    refine .ite (fun _ => .ite (fun _ => .get_bind ?_) fun _ => .get_bind ?_) fun _ => .pure h
    · cases r.state pin with
      | low => exact h
      | unconfigured => exact h_violate
      | high => exact h_violate
    · cases r.state pin with
      | low => exact .pure h
      | unconfigured => exact h_violate
      | high roseAt =>
        -- a pulse is recorded, and the list is cut to its capacity
        refine .modify_bind (.liftM_bind (fun width => ?_) trivial)
        exact length_lastOf_le capacity _
  exact h_ends.of_run h_run

namespace Engine

variable {p : Profile} {z : Epoch} {config : Config} {lag now : Nat}
  {e a t : Engine (Bench (Scope PinRecorder))}

/-- What is known of an engine after a run in which no stop gives up waiting. -/
structure Rested (config : Config) (lag : Nat) (e : Engine (Bench (Scope PinRecorder))) : Prop where
  orderly : Orderly e
  setup : e.config = config ∧ e.board.lag = lag
  pulses_le : e.pins.pins.pulses.length ≤ PinRecorder.capacity
  sound : e.table.Sound PinRecorder.eligiblePins

/-- While the engine is stopped, every pin is low, those of channels it had before as well. -/
theorem Rested.low (h : Rested config lag e) (h_off : e.started = false) (pin : Nat) :
    PinBank.isHigh e.pins pin = false := by
  rw [Bool.eq_false_iff, ne_eq, h.orderly.tied.high_iff, h.orderly.empty_of_stopped h_off]
  exact List.not_mem_nil

theorem rested_of_steps (h : Steps p false (freshObserved config lag now) e) :
    Rested config lag e := by
  -- no request of the pins makes the list of pulses longer than its capacity
  have h_pulses : StableUnder p false
      (fun e : Engine (Bench (Scope PinRecorder)) =>
        Orderly e ∧ e.config = config ∧ e.board.lag = lag)
      fun e => e.pins.pins.pulses.length ≤ PinRecorder.capacity := by
    refine .of_pins (J := fun s : Scope PinRecorder => s.pins.pulses.length ≤ PinRecorder.capacity)
      (fun h_s h_run => ?_) fun {pin s} h_s => ?_
    · obtain ⟨pins, h_pins, rfl⟩ := Scope.run_drive_eq_ok_iff.1 h_run
      exact PinRecorder.length_pulses_of_drive h_s h_pins
    · change (if pin ∈ PinRecorder.eligiblePins then s.pins.setState pin .low
        else s.pins).pulses.length ≤ _
      split
      · exact h_s
      · exact h_s
  have h_observed := Orderly.observed config lag now
  obtain ⟨⟨h_orderly, h_setup⟩, h_le⟩ :=
    ((Orderly.stable.and (setup_stableUnder config lag)).and h_pulses).steps
      ⟨⟨h_observed, rfl, rfl⟩, Nat.zero_le _⟩ h
  have h_events := events_of_steps h_observed.tied.prepared h
  exact ⟨h_orderly, h_setup, h_le, Panel.Steps.sound h_events.panel_steps (.new _)⟩

/-- The epoch that begins now. -/
def epoch (e : Engine (Bench (Scope PinRecorder))) : Epoch where
  time := e.clock.now
  periods := e.periods
  pulses := e.pins.pins.pulses
  edges := e.edges

/-- Pins that are all low outputs, under a new scope. -/
def lowOutputs : Scope PinRecorder := { pins := { pins := Vector.replicate 32 .low } }

theorem delayed_lowOutputs {r : PinRecorder} {pin : Nat} (h_low : r.isHigh pin = false) (s : Nat) :
    (r.state pin).Delayed s (lowOutputs.pins.state pin) := by
  unfold PinRecorder.isHigh at h_low
  unfold PinRecorder.state at *
  change PinState.Delayed s _ (((Vector.replicate 32 PinState.low)[pin]?).getD .unconfigured)
  rw [Vector.getElem?_replicate]
  split
  · -- a low pin is at rest in both banks, whether it was ever made an output or not
    generalize (r.pins[pin]?).getD .unconfigured = x at *
    cases x with
    | unconfigured => exact .prepared
    | low => exact .low
    | high => exact Bool.noConfusion h_low
  · rw [Vector.getElem?_eq_none (by omega)]
    exact .unconfigured

/-- An engine all of whose pins are low may count from now on. -/
theorem since_epoch (h_low : ∀ pin, PinBank.isHigh a.pins pin = false)
    (h_output : ∀ pin, a.OnPin pin → a.pins.pins.Drivable pin)
    (h_pulses : a.pins.pins.pulses.length ≤ PinRecorder.capacity) (clock : Clock)
    (h_clock : Clock.Delayed a.clock.now a.clock clock) :
    Since a.epoch a { a.onto (Bench.mk clock a.board.lag lowOutputs) with periods := 0 } := by
  -- the pulses of the epoch are those recorded so far
  have h_kept : a.pins.pins.pulses =
      PinRecorder.lastOf PinRecorder.capacity (a.pins.pins.pulses ++ []) := by
    rw [List.append_nil, PinRecorder.lastOf_of_le h_pulses]
  have h_pins : PinRecorder.Since a.epoch a.OnPin a.pins.pins lowOutputs.pins :=
    ⟨fun pin => delayed_lowOutputs (h_low pin) _, h_output, h_kept, Nat.zero_le _⟩
  have h_bench : Bench.Since a.epoch a.OnPin a.board ⟨clock, a.board.lag, lowOutputs⟩ :=
    ⟨h_clock, rfl, h_pins, (List.append_nil _).symm⟩
  -- the count of periods begins again at zero
  have h_none : a.periods + -a.periods = 0 := UInt32.add_right_neg a.periods
  refine ⟨_, ⟨_, h_bench, rfl⟩, ?_⟩
  rw [← h_none]
  rfl

/-- A new engine with these channels, resumed if it can run. -/
def resumed (config : Config) (lag : Nat) (table : ChannelTable) :
    Engine (Bench (Scope PinRecorder)) :=
  let t := fresh config lag 0 lowOutputs
  match config.validate with
  | .ok () => { t with table, moving := table.anyMoving }.launched 0
  | .error _ => { t with table }

/-- **Restarts.** What runs after a stop is, since then, a new engine with the same channels. -/
theorem since_start {r : Except StartError Unit}
    (h : Steps p false (freshObserved config lag now) e) (h_off : e.started = false)
    (h_run : (Engine.start none).run p e = .ok r a) :
    Since a.epoch a (resumed config lag e.table) := by
  have h_rested := rested_of_steps h
  have h_low := h_rested.low h_off
  have h_output (pin : Nat) (h_pin : e.OnPin pin) : e.pins.pins.Drivable pin :=
    h_rested.orderly.tied.prepared.output pin h_pin
  have h_setup := h_rested.setup
  unfold resumed
  rcases run_start_eq_afterStart h_run with ⟨⟨error, h_refused, -⟩, rfl⟩ | ⟨h_ok, -, starts, rfl⟩
  · -- refused for the configuration, as there is no list to refuse
    rw [checkStart, h_setup.1] at h_refused
    cases h_valid : config.validate with
    | ok _ =>
      rw [h_valid] at h_refused
      cases h_refused
    | error _ =>
      -- the clock is that of a timer that was never started
      have h_invalid : config.validate ≠ .ok () := h_valid ▸ nofun
      obtain ⟨now', rfl⟩ := exists_fresh_of_steps h_invalid h
      exact since_epoch h_low h_output h_rested.pulses_le {}
        ⟨(Nat.zero_add now').symm, nofun, rfl, rfl, rfl, rfl⟩
  · -- accepted, and the timer starts
    obtain ⟨rfl, rfl⟩ := h_setup
    rw [(checkStart_ok h_ok).1]
    -- the launch has the counter start from zero now, and resets all that the stop has left
    have h_launched : e.afterStart none starts =
        { e with moving := e.table.anyMoving }.launched starts := by
      unfold afterStart
      rw [h_off]
    have h_now := (Nat.zero_add e.clock.now).symm
    rw [h_launched]
    exact since_epoch (a := { e with moving := e.table.anyMoving }.launched starts) h_low h_output
      h_rested.pulses_le { running := true } ⟨h_now, fun _ => h_now, rfl, rfl, rfl, rfl⟩

/-- The engine `b₁` shows since `a₁` what the engine `b₂` shows since `a₂`: the same channels, flags
and levels, as many new periods, and the same new pulses and level changes at times counted from
then. Of the pulses the pins keep the last ones only, but the level changes are all there. -/
structure AlikeSince (a₁ b₁ a₂ b₂ : Engine (Bench (Scope PinRecorder))) : Prop where
  table : b₂.table = b₁.table
  moving : b₂.moving = b₁.moving
  started : b₂.started = b₁.started
  phase : b₂.phase = b₁.phase
  compare : b₂.clock.compare = b₁.clock.compare
  overflowPending : b₂.clock.overflowPending = b₁.clock.overflowPending
  comparePending : b₂.clock.comparePending = b₁.clock.comparePending
  levels : ∀ pin, PinBank.isHigh b₂.pins pin = PinBank.isHigh b₁.pins pin
  periods : b₂.periodsSince a₂.periods = b₁.periodsSince a₁.periods
  pulses : ∃ new : List Pulse,
    b₁.pins.pins.pulses = PinRecorder.lastOf PinRecorder.capacity
      (a₁.pins.pins.pulses ++ new.map (Pulse.delayed a₁.clock.now)) ∧
    b₂.pins.pins.pulses = PinRecorder.lastOf PinRecorder.capacity
      (a₂.pins.pins.pulses ++ new.map (Pulse.delayed a₂.clock.now))
  edges : ∃ new : List Edge,
    b₁.edges = a₁.edges ++ new.map (Edge.delayed a₁.clock.now) ∧
    b₂.edges = a₂.edges ++ new.map (Edge.delayed a₂.clock.now)

theorem Since.bench (h : Since z e t) : Bench.Since z e.OnPin e.board t.board := by
  obtain ⟨_, ⟨c, h_board, rfl⟩, rfl⟩ := h
  exact h_board

/-- What is not counted is the same, and the periods are those since the epoch. -/
theorem Since.same (h : Since z e t) :
    e.table = t.table ∧ e.moving = t.moving ∧ e.started = t.started ∧ e.phase = t.phase ∧
      e.periods - z.periods = t.periods := by
  obtain ⟨_, ⟨c, -, rfl⟩, rfl⟩ := h
  exact ⟨rfl, rfl, rfl, rfl, UInt32.sub_eq_add_neg _ _⟩

theorem alikeSince_of_since {a₁ b₁ a₂ b₂ : Engine (Bench (Scope PinRecorder))}
    (h₁ : Since a₁.epoch b₁ t) (h₂ : Since a₂.epoch b₂ t) : AlikeSince a₁ b₁ a₂ b₂ := by
  obtain ⟨h_table₁, h_moving₁, h_started₁, h_phase₁, h_periods₁⟩ := h₁.same
  obtain ⟨h_table₂, h_moving₂, h_started₂, h_phase₂, h_periods₂⟩ := h₂.same
  obtain ⟨h_clock₁, -, h_pins₁, h_edges₁⟩ := h₁.bench
  obtain ⟨h_clock₂, -, h_pins₂, h_edges₂⟩ := h₂.bench
  -- each part goes over the run from the epoch, to which both are compared
  exact {
    table := h_table₂.trans h_table₁.symm
    moving := h_moving₂.trans h_moving₁.symm
    started := h_started₂.trans h_started₁.symm
    phase := h_phase₂.trans h_phase₁.symm
    compare := h_clock₂.compare_eq.symm.trans h_clock₁.compare_eq
    overflowPending := h_clock₂.overflow_eq.symm.trans h_clock₁.overflow_eq
    comparePending := h_clock₂.pending_eq.symm.trans h_clock₁.pending_eq
    levels := fun pin => (h_pins₂.isHigh_eq pin).symm.trans (h_pins₁.isHigh_eq pin)
    periods := congrArg UInt32.toNat (h_periods₂.trans h_periods₁.symm)
    pulses := ⟨_, h_pins₁.pulses_eq, h_pins₂.pulses_eq⟩
    edges := ⟨_, h_edges₁, h_edges₂⟩ }

/-- **Nothing but the channels survives a stop.** Two new engines with the same configuration and
lag go through runs of their own in which no stop gives up waiting, and come to rest with the same
channels. Both are resumed. Whatever is then done to both of them, as long as time overflows in
neither, they stay alike. -/
theorem alike_after_restart {now₁ now₂ : Nat}
    {e₁ e₂ a₁ a₂ b₁ b₂ : Engine (Bench (Scope PinRecorder))} {r₁ r₂ : Except StartError Unit}
    {calls : List Call}
    (h₁ : Steps p false (freshObserved config lag now₁) e₁)
    (h₂ : Steps p false (freshObserved config lag now₂) e₂)
    (h_off₁ : e₁.started = false) (h_off₂ : e₂.started = false)
    (h_same : e₂.table.active = e₁.table.active)
    (h_start₁ : (start none).run p e₁ = .ok r₁ a₁) (h_start₂ : (start none).run p e₂ = .ok r₂ a₂)
    (h_calls₁ : Performs p calls a₁ b₁) (h_calls₂ : Performs p calls a₂ b₂) :
    AlikeSince a₁ b₁ a₂ b₂ := by
  -- the slots past the configured channels are the same as well
  have h_table : e₂.table = e₁.table :=
    (rested_of_steps h₂).sound.eq_of_active (rested_of_steps h₁).sound h_same
  -- both runs are compared with one engine that was started afresh
  have h_since₁ := since_start h₁ h_off₁ h_start₁
  have h_since₂ := since_start h₂ h_off₂ h_start₂
  rw [h_table] at h_since₂
  exact alikeSince_of_since (h_since₁.performs h_calls₁) (h_since₂.performs h_calls₂)

/-- A stopped engine that is resumed and goes on. -/
structure Restart where
  stopped : Engine (Bench (Scope PinRecorder))
  resumed : Engine (Bench (Scope PinRecorder))
  last : Engine (Bench (Scope PinRecorder))

/-- Replays a run, stops the engine, resumes it and performs some calls, if nothing traps and the
stop need not give up. -/
def restart? (p : Profile) (ops : List Op) (calls : List Call)
    (e : Engine (Bench (Scope PinRecorder))) : Option Restart :=
  (replay? p ops e).bind fun s =>
    (((stop fun _ => pure ()).result? p s).filter fun x => !x.1.forced).bind fun (_, stopped) =>
      ((start none).result? p stopped).bind fun (_, resumed) =>
        (perform? p calls resumed).map fun last => { stopped, resumed, last }

theorem restarts_of_restart? {ops : List Op} {calls : List Call}
    {e : Engine (Bench (Scope PinRecorder))} {x : Restart} (h : restart? p ops calls e = some x) :
    Steps p false e x.stopped ∧ (∃ r, (start none).run p x.stopped = .ok r x.resumed) ∧
      Performs p calls x.resumed x.last := by
  obtain ⟨s, h_replay, h⟩ := Option.bind_eq_some_iff.1 h
  obtain ⟨⟨report, t⟩, h_filter, h⟩ := Option.bind_eq_some_iff.1 h
  obtain ⟨h_stop, h_whole⟩ := Option.filter_eq_some_iff.1 h_filter
  obtain ⟨⟨r, a⟩, h_start, h⟩ := Option.bind_eq_some_iff.1 h
  obtain ⟨b, h_calls, rfl⟩ := Option.map_eq_some_iff.1 h
  -- the stop waited long enough, and so it is no forced one
  have h_last : Step p false s t := .stop (fun _ => Action.Keeps.pure ())
    (Action.run_eq_ok_of_result? h_stop) fun h_cut => nomatch h_cut ▸ h_whole
  exact ⟨.tail (steps_of_replay? h_replay false) h_last,
    ⟨r, Action.run_eq_ok_of_result? h_start⟩, performs_of_perform? h_calls⟩

/-- What is done after a restart. The stop waits for the second pulse to end. -/
def sharedCalls : List Call :=
  [.idle (.advance 65536), .idle .interrupt, .command (.speed 0 1000),
    .command (.targetTicks 0 20000), .idle (.run 80000), .stop fun _ => [.run 3000]]

/-- An engine that has emitted a pulse of servo 0 before. -/
def emittedRestart : Option Restart :=
  restart? .debug
    [.start (some [2]), .command (.targetTicks 0 30000), .advance 65536, .interrupt,
      .advance 30000, .interrupt] sharedCalls (freshObserved { wrapsPerPeriod := 1 } 3 0)

/-- An engine that has emitted on another pin, and was put on this one in the middle of a period. -/
def relistedRestart : Option Restart :=
  restart? .debug
    [.start (some [3, 4]), .command (.targetTicks 1 100), .advance 65536, .interrupt, .advance 100,
      .interrupt, .advance 5000, .start (some [2]), .command (.targetTicks 0 30000)] sharedCalls
    (freshObserved { wrapsPerPeriod := 1 } 3 1000)

theorem isSome_emittedRestart : emittedRestart.isSome = true := by decide +kernel

theorem isSome_relistedRestart : relistedRestart.isSome = true := by decide +kernel

/-- What the two engines did before shows in the pulses that are kept, and the later pulses are the
same, 23900 ticks earlier in the second engine, as its restart was. -/
theorem alike_after_restart_twoPasts :
    ∃ x₁ x₂ : Restart, emittedRestart = some x₁ ∧ relistedRestart = some x₂ ∧
      x₁.last.pins.pins.pulses =
        [⟨2, 65536, 30000⟩, ⟨2, 161072, 30000⟩, ⟨2, 226608, 29000⟩] ∧
      x₂.last.pins.pins.pulses = [⟨4, 66536, 100⟩, ⟨2, 137172, 30000⟩, ⟨2, 202708, 29000⟩] ∧
      AlikeSince x₁.resumed x₁.last x₂.resumed x₂.last := by
  -- the two engines have different pasts, which the pulses show
  have h_eq₁ := (Option.some_get isSome_emittedRestart).symm
  have h_eq₂ := (Option.some_get isSome_relistedRestart).symm
  obtain ⟨h₁, ⟨r₁, h_start₁⟩, h_calls₁⟩ := restarts_of_restart? h_eq₁
  obtain ⟨h₂, ⟨r₂, h_start₂⟩, h_calls₂⟩ := restarts_of_restart? h_eq₂
  refine ⟨_, _, h_eq₁, h_eq₂, ?_, ?_, ?_⟩
  · decide +kernel
  · decide +kernel
  · exact alike_after_restart h₁ h₂ (by decide +kernel) (by decide +kernel) (by decide +kernel)
      h_start₁ h_start₂ h_calls₁ h_calls₂

end Engine

end ServoPulse
