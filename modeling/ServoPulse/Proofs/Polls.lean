import Mathlib.Order.Bounds.Basic
import ServoPulse.Pins.Outputs
import ServoPulse.Proofs.Replay
import ServoPulse.Proofs.Serving
import ServoPulse.Proofs.StopLooks

/-!
# How often a stop waits

A stop looks for a pulse in flight and waits, in turn, until it finds none or until the waits add
up to the timeout. So it makes as many waits as it takes to get there, whatever happens while it
waits (`stop_polls_exactly`): in every state of a run an engine that is started has a configuration
it can run with, so each wait takes some time, and at the end it can be shut down, since the pins
of its channels can be driven low (`Landing`).

Banks of pins of which that can be said are `LowerablePins`. Recorded pins can be driven low when
they are outputs and rose in the past; digital outputs always follow.
-/

namespace ServoPulse

/-! ### Pins -/

/-- A bank of pins of which those on a list can be driven low. -/
class LowerablePins (P : Type) [PinBank P] where
  /-- From the time `now` on, the pins on the list can be driven low. -/
  Ready : (now : Nat) → (listed : List Nat) → P → Prop
  mono : ∀ {now now' : Nat} {listed : List Nat} {r : P}, Ready now listed r → now ≤ now' →
    Ready now' listed r
  of_drive : ∀ {p : Profile} {level : Bool} {now pin : Nat} {listed : List Nat} {r r' : P},
    Ready now listed r → (PinBank.drive level now pin).run p r = .ok () r' → Ready now listed r'
  of_prepareAll : ∀ {now : Nat} {listed pins : List Nat} {r : P}, Ready now listed r →
    (∀ pin ∈ pins, pin ∈ PinBank.eligible r) → Ready now pins (PinBank.prepareAll pins r)
  returns_setLow : ∀ {p : Profile} {now pin : Nat} {listed : List Nat} {r : P},
    Ready now listed r → pin ∈ listed → ∃ r', (PinBank.setLow now pin).run p r = .ok () r'

namespace LowerablePins

variable {P : Type} [PinBank P] [LowerablePins P] {p : Profile} {level : Bool} {now : Nat}
  {listed pins : List Nat} {r r' : P}

theorem of_driveAll (h : Ready now listed r)
    (h_run : (PinBank.driveAll level now pins).run p r = .ok () r') : Ready now listed r' :=
  PinBank.driveAll_keeps of_drive h h_run

theorem returns_driveLow (h : Ready now listed r) (h_pins : ∀ pin ∈ pins, pin ∈ listed) :
    ∃ r', (PinBank.driveAll false now pins).run p r = .ok () r' := by
  -- induction on the pins, each of which can be lowered
  induction pins generalizing r with
  | nil => exact ⟨r, rfl⟩
  | cons pin pins ih =>
    obtain ⟨t, h_first⟩ := returns_setLow (p := p) h (h_pins pin List.mem_cons_self)
    have h_low : (PinBank.drive false now pin).run p r = .ok () t := h_first
    obtain ⟨r', h_rest⟩ := ih (of_drive h h_low)
      fun other h_other => h_pins other (List.mem_cons_of_mem pin h_other)
    exact ⟨r', Action.run_forM_cons_eq_ok_iff.2 ⟨t, h_low, h_rest⟩⟩

end LowerablePins

/-- A fall of an output that rose in the past is no violation. -/
theorem PinRecorder.returns_fall {p : Profile} {now pin : Nat} {r : PinRecorder}
    (h_output : r.isOutput pin = true) (h_rose : ∀ t, r.state pin = .high t → t ≤ now) :
    ∃ r', (fall now pin).run p r = .ok () r' := by
  unfold fall
  rw [Action.run_get_bind]
  cases h_state : r.state pin with
  | unconfigured =>
    rw [isOutput, h_state] at h_output
    exact Bool.noConfusion h_output
  | low => exact ⟨r, rfl⟩
  | high roseAt =>
    -- the pulse began in the past, so its width can be computed
    obtain ⟨width, h_width⟩ := Checked.exists_run_sub (p := p) (w := .bits64)
      fun _ => h_rose roseAt h_state
    refine ⟨(r.setState pin .low).record ⟨pin, roseAt, width⟩, ?_⟩
    dsimp only
    rw [Action.run_modify_bind, Action.run_liftM_bind_eq_ok_iff]
    exact ⟨width, h_width, rfl⟩

instance : LowerablePins PinRecorder where
  Ready now listed r := RoomyPinBank.Room now 0 r ∧ ∀ pin ∈ listed, LawfulPinBank.isOutput r pin
  mono h h_le := ⟨RoomyPinBank.mono h.1 h_le (Nat.le_refl 0), h.2⟩
  of_drive h h_run := ⟨RoomyPinBank.of_drive h.1 h_run,
    fun pin h_pin => (LawfulPinBank.isOutput_drive h_run pin).2 (h.2 pin h_pin)⟩
  of_prepareAll h h_pins := ⟨RoomyPinBank.of_prepareAll h.1,
    fun pin h_pin => ((PinBank.prepareAll_levels h_pins).2.1 pin).2 (.inl h_pin)⟩
  returns_setLow {p now pin listed r} h h_pin := by
    -- a listed pin is an eligible output
    obtain ⟨h_eligible, h_output⟩ := h.2 pin h_pin
    obtain ⟨r', h_run⟩ := PinRecorder.returns_fall (p := p) h_output (h.1.rose_le pin)
    refine ⟨r', ?_⟩
    change Action.run
      (if pin ∈ PinRecorder.eligiblePins then PinRecorder.fall now pin else pure ()) p r = _
    rwa [if_pos h_eligible]

instance : LowerablePins OutputBank where
  Ready _ _ _ := True
  mono _ _ := trivial
  of_drive _ _ := trivial
  of_prepareAll _ _ := trivial
  returns_setLow _ _ := ⟨_, rfl⟩

namespace Engine

/-! ### Engines that can be shut down -/

section Landing

variable {P : Type} [PinBank P] {p : Profile} {e e' : Engine (Bench P)}

theorem run_lowerEach_of_driveAll {channels : List Channel} {pins : P}
    (h : (PinBank.driveAll false e.clock.now (channels.map Channel.pin)).run p e.pins =
      .ok () pins) :
    (channels.forM fun c => onBoard (Board.setLow c.pin)).run p e = .ok () (e.withPins pins) := by
  -- induction on the channels, whose pins the bank has lowered one by one
  induction channels generalizing e with
  | nil =>
    obtain rfl := Action.run_forM_nil_eq_ok_iff.1 h
    rfl
  | cons c channels ih =>
    obtain ⟨mid, h_first, h_rest⟩ := Action.run_forM_cons_eq_ok_iff.1 h
    exact Action.run_forM_cons_eq_ok_iff.2
      ⟨e.withPins mid, run_setLow_eq_ok_iff.2 ⟨mid, h_first, rfl⟩, ih (e := e.withPins mid) h_rest⟩

theorem run_shutDown_of_driveAll {pins : P}
    (h : (PinBank.driveAll false e.clock.now (e.table.active.map Channel.pin)).run p e.pins =
      .ok () pins) :
    shutDown.run p e = .ok () (e.down pins) := by
  -- the queue is emptied and the timer stopped before the pins are lowered
  have h_lower := run_lowerEach_of_driveAll
    (e := { e.withClock e.clock.stop with queue := {} }) h
  have h_halt : halt.run p e =
      .ok () { e.down pins with started := e.started, moving := e.moving } := by
    rw [halt, changeBoard, Action.run_modify_bind, Action.run_modify_bind, Action.run_get_bind]
    exact Action.run_bind_eq_ok_iff.2 ⟨⟨⟩, _, h_lower, rfl⟩
  exact Action.run_bind_eq_ok_iff.2 ⟨⟨⟩, _, h_halt, rfl⟩

variable [LowerablePins P]

open LowerablePins

/-- An engine that runs can run with its configuration, and the pins of its channels can be driven
low. -/
structure Landing (e : Engine (Bench P)) : Prop where
  valid : e.started = true → e.config.validate = .ok ()
  ready : Ready e.clock.now (e.table.active.map Channel.pin) e.pins

namespace Landing

theorem initial {config : Config} {lag now : Nat} {pins : P} (h : Ready now [] pins) :
    Landing (fresh config lag now pins) where
  valid h_on := nomatch h_on
  ready := by
    change Ready now (List.map Channel.pin (List.take 0 _)) pins
    rwa [List.take_zero]

theorem serveStable : ServeStable (Landing (P := P)) where
  lower h _ _ _ h_run := by
    obtain ⟨pins, h_pins, rfl⟩ := run_lower_eq_ok_iff.1 h_run
    have h_low : (PinBank.drive false _ _).run _ _ = .ok () pins := h_pins
    exact ⟨h.valid, of_drive h.ready h_low⟩
  arm h _ _ _ _ h_pass := ⟨h.valid, mono h.ready (Clock.keeps_passUntil _ h_pass).now_le⟩
  setClock h h_now _ := ⟨h.valid, mono h.ready (Nat.le_of_eq h_now.symm)⟩
  setWrap h := ⟨h.valid, h.ready⟩
  setPhase h := ⟨h.valid, h.ready⟩
  beginPeriod {e e'} h h_run := by
    obtain ⟨low, high, h_low, h_high, rfl⟩ := run_beginPeriod_eq_ok h_run
    -- the pins stay ready through both groups of requests, and the step keeps them listed
    have h_ready := of_driveAll (of_driveAll h.ready h_low) h_high
    rw [← e.table.map_pin_step] at h_ready
    exact ⟨h.valid, h_ready⟩

/-- **Engines that can be shut down.** Every step of a run leads to one. -/
theorem stable (cuts : Bool) : Stable p cuts (Landing (P := P)) where
  valid := Landing.valid
  advance h h_run := ⟨h.valid, mono h.ready (Clock.keeps_advanceUntil _ h_run).now_le⟩
  interrupt := serveStable.interrupt
  relist {e e'} h h_list := by
    cases h_list with
    | resume moving => exact ⟨h.valid, h.ready⟩
    | @list pins h_length h_nodup h_eligible =>
      -- the pins of a new list have just been made outputs
      refine ⟨h.valid, ?_⟩
      change Ready _ ((ChannelTable.assign pins).active.map Channel.pin) _
      rw [ChannelTable.map_pin_assign h_length]
      exact of_prepareAll h.ready h_eligible
  launch h _ h_valid := ⟨fun _ => h_valid, h.ready⟩
  command {e moving k} h := by
    -- a command changes no pin of the table
    have h_ready := h.ready
    rw [← ChannelTable.map_pin_modify (n := k.servo) k.write_pin] at h_ready
    exact ⟨h.valid, h_ready⟩
  shutDown {e e'} h _ h_run := by
    obtain ⟨pins, h_pins, rfl⟩ := run_shutDown_eq_ok h_run
    exact ⟨nofun, of_driveAll h.ready h_pins⟩

theorem returns_shutDown (h : Landing e) : ∃ e', shutDown.run p e = .ok () e' := by
  obtain ⟨pins, h_pins⟩ := returns_driveLow (p := p) h.ready fun _ => id
  exact ⟨e.down pins, run_shutDown_of_driveAll h_pins⟩

end Landing

end Landing

/-! ### Counting the waits -/

section Waits

variable {β : Type} {p : Profile} {wait : Nat → Action (Engine β) Unit} {e s t : Engine β} {j : Nat}

/-- The engine after the first `j` waits from `e` on. -/
inductive AfterWaits (p : Profile) (wait : Nat → Action (Engine β) Unit) (e : Engine β) :
    (j : Nat) → Engine β → Prop
  | zero : AfterWaits p wait e 0 e
  | succ {j : Nat} {s t : Engine β} (h : AfterWaits p wait e j s)
      (h_run : (wait j).run p s = .ok () t) : AfterWaits p wait e (j + 1) t

/-- A wait that returns leads to one state. -/
theorem AfterWaits.unique (h_s : AfterWaits p wait e j s) (h_t : AfterWaits p wait e j t) :
    t = s := by
  -- induction on the waits, each of which ends in one state only
  induction h_s generalizing t with
  | zero =>
    cases h_t
    rfl
  | succ _ h_run ih =>
    cases h_t with
    | succ h_t h_run' =>
      obtain rfl := ih h_t
      exact (EStateM.Result.ok.inj (h_run'.symm.trans h_run)).2

/-- Where every look before the `k`-th finds a pulse before the timeout, and that one does not, the
waits before it are the least number that ends a stop. -/
theorem AfterWaits.isLeast {k poll timeout : Nat} (h_s : AfterWaits p wait e k s)
    (h_last : s.pulseInFlight = true → timeout ≤ k * poll)
    (h_before : ∀ i < k, ∃ t, AfterWaits p wait e i t ∧ t.pulseInFlight = true ∧
      i * poll < timeout) :
    IsLeast {j | ∃ t, AfterWaits p wait e j t ∧ (t.pulseInFlight = false ∨ timeout ≤ j * poll)}
      k := by
  refine ⟨⟨s, h_s, ?_⟩, fun j ⟨t, h_t, h_end⟩ => Nat.le_of_not_lt fun h_lt => ?_⟩
  · -- the last look finds no pulse, or the time is up
    cases h_flight : s.pulseInFlight with
    | false => exact .inl rfl
    | true => exact .inr (h_last h_flight)
  · -- a look that ends the waits after fewer of them would be one of those before
    obtain ⟨u, h_u, h_flight, h_soon⟩ := h_before j h_lt
    obtain rfl := h_u.unique h_t
    rcases h_end with h_none | h_over
    · exact Bool.noConfusion (h_flight.symm.trans h_none)
    · exact Nat.not_lt_of_le h_over h_soon

end Waits

section Stop

variable {P : Type} [PinBank P] [LowerablePins P] {p : Profile} {config : Config} {lag now : Nat}
  {pins : P} {e : Engine (Bench P)} {wait : Nat → Action (Engine (Bench P)) Unit}

/-- **Stops.** From any state of a run, a stop whose waits return while they are needed returns as
well. It waits the least number of times after which either no pulse is in flight or the waits make
up the timeout, and reports that number and whether a pulse was still in flight. It leaves the
engine shut down: the timer off, nothing armed, pending or queued, and the channels as they were
after the last wait. -/
theorem stop_polls_exactly (h_pins : LowerablePins.Ready now [] pins)
    (h : Steps p true (fresh config lag now pins) e) (h_on : e.started = true)
    (h_wait : ∀ j s, AfterWaits p wait e j s → s.pulseInFlight = true →
      j * e.config.stopPollUs.toNat < e.config.stopTimeoutUs.toNat →
        (wait j).Returns p s fun _ t => Moments s t) :
    e.config.validate = .ok () ∧ 1 ≤ e.config.stopPollUs.toNat ∧
      ∃ k s e', AfterWaits p wait e k s ∧
        IsLeast {j | ∃ t, AfterWaits p wait e j t ∧ (t.pulseInFlight = false ∨
          e.config.stopTimeoutUs.toNat ≤ j * e.config.stopPollUs.toNat)} k ∧
        (stop wait).run p e = .ok ⟨k, s.pulseInFlight⟩ e' ∧
        e'.started = false ∧ e'.clock.running = false ∧ e'.clock.compare = none ∧
        e'.clock.hasPending = false ∧ e'.queue.events = [] ∧ e'.phase = .halted ∧
        (e'.moving = true ↔ ∃ c ∈ e'.table.active, c.position ≠ c.target) ∧
        e'.table = s.table := by
  have h_landing := (Landing.stable true).steps (Landing.initial h_pins) h
  have h_valid := h_landing.valid h_on
  obtain ⟨-, -, h_poll⟩ := e.config.validate_eq_ok_iff.1 h_valid
  refine ⟨h_valid, h_poll, ?_⟩
  -- each look before the last one found a pulse in flight, and the timeout was not over
  have h_stop : (stop wait).Returns p e _ := returns_stop
    (I := fun j s => AfterWaits p wait e j s ∧ Landing s ∧
      ∀ i < j, ∃ t, AfterWaits p wait e i t ∧ t.pulseInFlight = true ∧
        i * e.config.stopPollUs.toNat < e.config.stopTimeoutUs.toNat) h_on h_valid
    (fun j s ⟨h_s, h_land, h_before⟩ h_flight h_j => ?_)
    (fun j s ⟨_, h_land, _⟩ => ?_) ⟨.zero, h_landing, nofun⟩
  · obtain ⟨⟨k, forced⟩, e', h_run, s, ⟨h_s, h_land, h_before⟩, h_down, h_forced, h_last⟩ := h_stop
    obtain rfl : forced = s.pulseInFlight := h_forced
    have h_least := h_s.isLeast
      (fun h_flight => (Config.maxPolls_le_iff h_poll).1 (h_last h_flight)) h_before
    obtain ⟨pins', -, rfl⟩ := run_shutDown_eq_ok h_down
    refine ⟨k, s, _, h_s, h_least, h_run, rfl, rfl, rfl, rfl, rfl, rfl, ?_, rfl⟩
    change s.table.anyMoving = true ↔ ∃ c ∈ s.table.active, c.position ≠ c.target
    simp only [ChannelTable.anyMoving, List.any_eq_true, Channel.isMoving_iff]
  · -- this look goes on to a wait, and so joins those before
    have h_soon : j * e.config.stopPollUs.toNat < e.config.stopTimeoutUs.toNat :=
      Nat.lt_of_not_le fun h_over => Nat.not_le_of_lt h_j ((Config.maxPolls_le_iff h_poll).2 h_over)
    refine (h_wait j s h_s h_flight h_soon).mono fun _ t h_run h_moments => ?_
    refine ⟨h_s.succ h_run, (Landing.stable (p := p) true).moments h_land h_moments,
      fun i h_i => ?_⟩
    rcases Nat.lt_succ_iff_lt_or_eq.1 h_i with h_i | rfl
    · exact h_before i h_i
    · exact ⟨s, h_s, h_flight, h_soon⟩
  · -- and wherever the waits end, the pins can be lowered
    obtain ⟨e', h_down⟩ := h_land.returns_shutDown (p := p)
    exact ⟨⟨⟩, e', h_down, trivial⟩

end Stop

/-- A run to the first pulse, with a poll interval and a timeout. -/
def pulsingRun (poll timeout : UInt32) : Option (Engine (Bench PinRecorder)) :=
  replay? .debug
    [.start (some [2]), .command (.targetTicks 0 36000), .advance 65536, .interrupt]
    (freshRecorded { stopPollUs := poll, stopTimeoutUs := timeout } 0 0)

/-- No interval of 400 microseconds ends at a timeout of 2500. -/
theorem stop_polls_exactly_pulsingRun :
    ∃ e k s e', pulsingRun 400 2500 = some e ∧
      AfterWaits .debug (fun _ => pure ()) e k s ∧
      (stop fun _ => pure ()).run .debug e = .ok ⟨k, s.pulseInFlight⟩ e' := by
  have h_some : (pulsingRun 400 2500).isSome = true := by decide +kernel
  obtain ⟨e, h_run⟩ := Option.isSome_iff_exists.1 h_some
  have h_on : (pulsingRun 400 2500).map started = some true := by decide +kernel
  rw [h_run] at h_on
  have h_ready : LowerablePins.Ready 0 [] ({} : PinRecorder) := ⟨PinRecorder.hasRoom_new 0, nofun⟩
  have h_steps := steps_of_replay? h_run true
  -- waits that do nothing return
  obtain ⟨-, -, k, s, e', h_s, -, h_stop, -⟩ := stop_polls_exactly h_ready h_steps
    (Option.some.inj h_on) fun _ _ _ _ _ => Action.Returns.pure .refl
  exact ⟨e, k, s, e', h_run, h_s, h_stop⟩

end Engine

end ServoPulse
