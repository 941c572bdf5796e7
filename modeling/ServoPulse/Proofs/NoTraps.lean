import ServoPulse.Proofs.BoardInvariants
import ServoPulse.Proofs.Replay
import ServoPulse.Proofs.Returning

/-!
# The widths suffice

In the `debug` profile a number that leaves its width traps. On the simulated board this happens
only where time or one of two counts runs out (`Bench.Exhausted`): the next turn of the counter or
the lag of arming the compare channel would end after the last instant, or the timer is started or
a request refused once more often than 32 bits count.

Differences never leave their width, because what they look back at lies in the past
(`Bench.InPast`): the start of the counter and the rise of each pin that is high. That is what every
call to the board keeps (`Bench.boardStable_inPast`), and so every state that an engine can reach
has it and no operation traps there before something is exhausted (`no_arithmetic_trap`).
-/

namespace ServoPulse

/-! ### The clock -/

namespace Clock

variable {p : Profile} {c c' : Clock}

/-- The counter can be read as long as it started in the past. -/
theorem not_error_of_counter {trap : Trap} (h_origin : c.origin ≤ c.now) :
    c.counter.run p ≠ .error trap := by
  intro h
  unfold counter at h
  split at h
  · -- the one trap would be the difference to an origin in the future
    have h_sub := Checked.run_map_eq_error_iff.1 h
    obtain rfl := Checked.debug_of_run_sub h_sub
    exact Nat.not_lt_of_le h_origin (Checked.lt_of_run_sub h_sub)
  · cases h

/-- A jump that traps does so before it looks at its limit. -/
theorem run_advanceUntil_eq_error {limit : Nat} {trap : Trap}
    (h : (advanceUntil limit).run p c = .error trap c') (limit' : Nat) :
    (advanceUntil limit').run p c = .error trap c := by
  unfold advanceUntil at h ⊢
  rw [Action.run_get_bind, Action.run_bind, Action.run_liftM] at h ⊢
  -- the two sums that can trap do not look at the limit
  cases h_overflow : c.nextOverflow?.run p with
  | error trap' =>
    rw [h_overflow] at h
    cases h
    rfl
  | ok overflow? =>
    simp only [h_overflow, Action.run_bind, Action.run_liftM] at h ⊢
    cases h_compare : c.nextCompare?.run p with
    | error trap' =>
      rw [h_compare] at h
      cases h
      rfl
    | ok compare? =>
      -- the limit is compared with a time that has been computed
      simp only [h_compare] at h
      cases h_next : earlier? overflow? compare? with
      | none =>
        rw [h_next] at h
        cases h
      | some next =>
        simp only [h_next, Action.run_ite] at h
        split at h <;> cases h

/-- A jump is the plain function, or it does not fit and traps. -/
theorem ends_reach (limit : Nat) (h_fits : p = .release → c.Fits) :
    Action.Ends p (advanceUntil limit) c (fun event c' => c.Fits ∧ c.reach limit = (event, c'))
      fun c' => c' = c ∧ p = .debug ∧ ¬c.Fits := by
  cases p with
  | release => exact .ok (run_advanceUntil_of_fits (h_fits rfl) limit .release) ⟨h_fits rfl, rfl⟩
  | debug =>
    refine Action.ends_iff.2 ⟨fun event c' => run_advanceUntil_debug_iff.1, fun trap c' h => ?_⟩
    have h_same := run_advanceUntil_eq_error h limit
    rw [h] at h_same
    cases h_same
    -- with a clock that fits there was no trap at all
    refine ⟨rfl, rfl, fun h_c => ?_⟩
    rw [run_advanceUntil_of_fits h_c] at h
    cases h

/-- A jump of time traps only where a turn of the counter does not fit any more. -/
theorem ends_advanceUntil (limit : Nat) (h_origin : c.origin ≤ c.now) :
    Action.Ends .debug (advanceUntil limit) c (fun _ c' => Passes c c')
      fun c' => c' = c ∧ Width.bits64.size ≤ c.now + ticksPerWrap := by
  have h_reach := ends_reach (p := .debug) (c := c) limit fun h => Profile.noConfusion h
  refine h_reach.mono (fun event c' h => ?_) fun c' h => ⟨h.1, ?_⟩
  · have h_passes := passes_reach h.1 limit
    rwa [h.2] at h_passes
  · exact Nat.le_of_not_lt fun h_lt => h.2.2 (fits_of_lt h_origin h_lt)

theorem ends_passUntil (limit : Nat) (h_origin : c.origin ≤ c.now) :
    Action.Ends .debug (passUntil limit) c (fun _ c' => Passes c c')
      fun c' => Passes c c' ∧ Width.bits64.size ≤ c'.now + ticksPerWrap := by
  -- what one jump may do, the loop over jumps may do
  have h_jump : Action.Confined (Passes c)
      (fun d => Passes c d ∧ Width.bits64.size ≤ d.now + ticksPerWrap) .debug
      (advanceUntil limit) := by
    -- the origin stays where it was while the clock goes on
    intro d h_d
    have h_past : d.origin ≤ d.now := h_d.origin_eq ▸ Nat.le_trans h_origin h_d.now_le
    refine (ends_advanceUntil limit h_past).mono (fun _ d' h => IsTrans.trans _ _ _ h_d h) ?_
    rintro d' ⟨rfl, h_end⟩
    exact ⟨h_d, h_end⟩
  exact h_jump.repeatWhile _ c (Std.Refl.refl c)

end Clock

/-! ### The pins -/

namespace PinRecorder

variable {p : Profile} {now pin : Nat} {r : PinRecorder}

/-- No pin rose after the time `now`, and the `debug` profile cannot count another violation. -/
structure Spent (p : Profile) (now : Nat) (r : PinRecorder) : Prop where
  roseBy : RoseBy now r
  debug : p = .debug
  full : Width.bits32.size ≤ r.violations + 1

theorem confined_violate : Action.Confined (RoseBy now) (Spent p now) p violate :=
  .get_liftM_bind (fun _ _ => .modify fun _ h => h) fun _ _ h h_run =>
    ⟨h, Checked.debug_of_run_add h_run, Checked.size_le_of_run_add h_run⟩

theorem confined_rise (h_pin : pin ∈ eligiblePins) :
    Action.Confined (RoseBy now) (Spent p now) p (rise now pin) := by
  refine .get_bind fun r => ?_
  cases r.state pin with
  | low =>
    -- from now on the pin is high since this instant
    refine .modify fun r h => h.setState h_pin (fun t h_t => ?_) rfl
    exact Nat.le_of_eq (PinState.high.inj h_t).symm
  | unconfigured =>
    -- a violation is counted, which is where the bank may give out
    exact confined_violate
  | high => exact confined_violate

/-- A pulse that is over began in the past, so that it has a width. -/
theorem confined_fall (h_pin : pin ∈ eligiblePins) :
    Action.Confined (RoseBy now) (Spent p now) p (fall now pin) := by
  intro r h
  refine .get_bind ?_
  cases h_state : r.state pin with
  | unconfigured => exact confined_violate r h
  | low => exact .pure h
  | high roseAt =>
    -- the width of the pulse is the difference to its rise, which lies in the past
    refine .modify_bind (.liftM_bind_of_trap (fun width => ?_) fun trap h_run => ?_)
    · exact h.setState h_pin (fun t h_t => PinState.noConfusion h_t) rfl
    · obtain rfl := Checked.debug_of_run_sub h_run
      exact absurd (h pin roseAt h_state) (Nat.not_le_of_lt (Checked.lt_of_run_sub h_run))

theorem confined_drive (level : Bool) (now pin : Nat) :
    Action.Confined (RoseBy now) (Spent p now) p (PinBank.drive level now pin) := by
  -- a pin that is not eligible is not driven
  have h_each {x : Action PinRecorder Unit}
      (h : pin ∈ eligiblePins → Action.Confined (RoseBy now) (Spent p now) p x) :
      Action.Confined (RoseBy now) (Spent p now) p (if pin ∈ eligiblePins then x else pure ()) :=
    fun r h_r => .ite (fun h_pin => h h_pin r h_r) fun _ => .pure h_r
  cases level with
  | true => exact h_each confined_rise
  | false => exact h_each confined_fall

end PinRecorder

/-! ### The board -/

namespace Bench

variable {b : Bench PinRecorder} {clock : Clock}

/-- The counter did not start, and no pin that is high rose, after the present time. -/
structure InPast (b : Bench PinRecorder) : Prop where
  origin_le : b.clock.origin ≤ b.clock.now
  roseBy : b.pins.RoseBy b.clock.now

/-- Something is about to run out. -/
inductive Exhausted (b : Bench PinRecorder) : Prop
  /-- No turn of the counter fits before the last instant. -/
  | turn (h : Width.bits64.size ≤ b.clock.now + ticksPerWrap)
  /-- The lag does not fit before the last instant. -/
  | lag (h : Width.bits64.size ≤ b.clock.now + b.lag)
  /-- Another start of the timer cannot be counted. -/
  | starts (h : Width.bits32.size ≤ b.clock.starts + 1)
  /-- Another violation cannot be counted. -/
  | violations (h : Width.bits32.size ≤ b.pins.violations + 1)

/-- What holds of the board where an operation traps. -/
structure WornOut (b : Bench PinRecorder) : Prop where
  inPast : b.InPast
  exhausted : b.Exhausted

theorem InPast.passes (h : b.InPast) (h_passes : Clock.Passes b.clock clock) :
    InPast { b with clock } where
  origin_le := h_passes.origin_eq ▸ Nat.le_trans h.origin_le h_passes.now_le
  roseBy pin t h_high := Nat.le_trans (h.roseBy pin t h_high) h_passes.now_le

theorem confined_start : Action.Confined InPast WornOut .debug (onClock Clock.start) := by
  refine fun b h => .zoom (.modify_bind (.get_bind ?_))
  refine .liftM_bind_of_trap (fun starts => ?_) fun trap h_run => ?_
  · exact ⟨Nat.le_refl _, h.roseBy⟩
  · exact ⟨⟨Nat.le_refl _, h.roseBy⟩, .starts (Checked.size_le_of_run_add h_run)⟩

theorem confined_advanceUntil (limit : Nat) :
    Action.Confined InPast WornOut .debug (onClock (Clock.advanceUntil limit)) := by
  intro b h
  refine .zoom ((Clock.ends_advanceUntil limit h.origin_le).mono (fun _ c => h.passes) ?_)
  rintro c ⟨rfl, h_end⟩
  exact ⟨h, .turn h_end⟩

/-- Arming takes time, which may run out. -/
theorem confined_armCompare (value : Count) :
    Action.Confined InPast WornOut .debug (armCompare value) := by
  intro b h
  -- arming leaves the clock where it is
  have h_armed : InPast { b with clock := b.clock.arm value } := ⟨h.origin_le, h.roseBy⟩
  refine .modify_bind (.get_bind (.liftM_bind_of_trap (fun limit => .zoom ?_) fun trap h_run => ?_))
  · -- the arm waits for the lag, on a clock that may run out meanwhile
    refine (Clock.ends_passUntil limit h_armed.origin_le).mono (fun _ c => h_armed.passes) ?_
    rintro c ⟨h_passes, h_end⟩
    exact ⟨h_armed.passes h_passes, .turn h_end⟩
  · -- or the lag alone is too long to be waited for
    exact ⟨h_armed, .lag (Checked.size_le_of_run_add h_run)⟩

theorem confined_drive (level : Bool) (pin : Nat) :
    Action.Confined (σ := Bench PinRecorder) InPast WornOut .debug
      (do onPins (PinBank.drive level (← get).clock.now pin)) := by
  refine fun b h => .get_bind (.zoom ?_)
  refine (PinRecorder.confined_drive level _ pin b.pins h.roseBy).mono (fun _ r h_r => ?_)
    fun r h_r => ?_
  · exact ⟨h.origin_le, h_r⟩
  · exact ⟨⟨h.origin_le, h_r.roseBy⟩, .violations h_r.full⟩

/-- **The simulated board.** Every call keeps the past in the past and traps only where something is
exhausted. -/
theorem boardStable_inPast : BoardStable .debug InPast WornOut where
  startTimer := confined_start
  stopTimer b h := ⟨h.origin_le, h.roseBy⟩
  -- the counter never traps, so nothing is asked of it
  counter b trap h h_run := absurd h_run (Clock.not_error_of_counter h.origin_le)
  armCompare := confined_armCompare
  disarmCompare b h := ⟨h.origin_le, h.roseBy⟩
  takeOverflow b h := ⟨h.origin_le, h.roseBy⟩
  takeCompare b h := ⟨h.origin_le, h.roseBy⟩
  configureOutput pin b h := by
    -- a pin that becomes an output is low and has not risen
    refine ⟨h.origin_le, ?_⟩
    change PinRecorder.RoseBy _
      (if pin ∈ PinRecorder.eligiblePins then b.pins.setState pin .low else b.pins)
    split
    · exact h.roseBy.setState ‹_› (fun t h_t => PinState.noConfusion h_t) rfl
    · exact h.roseBy
  -- both levels are driven by the one call of the bank
  setHigh := confined_drive true
  setLow := confined_drive false

/-- Time passes up to the next event, or up to a limit. -/
def Ticks {P : Type} (x : Action (Bench P) Bool) : Prop :=
  ∃ limit, x = onClock (Clock.advanceUntil limit)

theorem Ticks.confined {x : Action (Bench PinRecorder) Bool} (h : Ticks x) :
    Action.Confined InPast WornOut .debug x := by
  obtain ⟨limit, rfl⟩ := h
  exact confined_advanceUntil limit

end Bench

namespace Engine

variable {config : Config} {lag now : Nat} {e e' : Engine (Bench PinRecorder)}

/-! ### Reachable states -/

/-- The states of an engine on a simulated board. A trap does not end a run. -/
inductive Reached (config : Config) (lag now : Nat) : Engine (Bench PinRecorder) → Prop
  | new : Reached config lag now (freshRecorded config lag now)
  | operation {e e' : Engine (Bench PinRecorder)} {α : Type}
    {x : Action (Engine (Bench PinRecorder)) α} (h_run : Reached config lag now e)
    (h : Operation Bench.Ticks (fun _ => True) x) (h_end : x.EndsIn .debug e e') :
    Reached config lag now e'
  | clearPulses {e : Engine (Bench PinRecorder)} (h_run : Reached config lag now e) :
    Reached config lag now (e.withPins e.pins.clearPulses)

theorem Reached.holds (h : Reached config lag now e) : Holds Bench.InPast e := by
  induction h with
  | new =>
    -- the run begins at zero with a bank that has recorded nothing
    refine ⟨⟨Nat.zero_le _, ?_⟩, Nat.zero_le _, Nat.zero_le _⟩
    exact (PinRecorder.hasRoom_new now).rose_le
  | operation _ h h_end ih =>
    -- whatever an operation does, also one that traps, it stays within the board's limits
    have h_board : BoardStable .debug Bench.InPast Bench.InPast :=
      Bench.boardStable_inPast.mono fun _ => Bench.WornOut.inPast
    have h_ticks (x : Action (Bench PinRecorder) Bool) (h_x : Bench.Ticks x) :
        Action.Confined Bench.InPast Bench.InPast .debug x :=
      h_x.confined.mono fun _ => Bench.WornOut.inPast
    exact (h.ends h_board h_ticks ih fun _ _ _ => ih).of_endsIn h_end
  | clearPulses _ ih => exact ⟨⟨ih.board.origin_le, ih.board.roseBy⟩, ih.wrap_le, ih.count_le⟩

/-- The widths of an engine's numbers suffice. -/
structure WidthsSuffice (e : Engine (Bench PinRecorder)) : Prop where
  origin_le : e.clock.origin ≤ e.clock.now
  rose_le : ∀ pin t, e.pins.state pin = .high t → t ≤ e.clock.now
  elapsed_lt : ∃ n, e.elapsed.run .debug = .ok n ∧ n < Width.bits32.size
  /-- An operation that names only servos below the count returns, or something is exhausted. -/
  operation : ∀ {α : Type} {x : Action (Engine (Bench PinRecorder)) α},
    Operation Bench.Ticks (· < e.servoCount) x →
      x.Ends .debug e (fun _ _ => True) fun e' => e'.board.Exhausted

/-- The ticks since the period started fit in 24 bits. -/
theorem Holds.exists_elapsed (h : Holds Bench.InPast e) :
    ∃ n, e.elapsed.run .debug = .ok n ∧ n < Width.bits32.size := by
  -- the reading traps no more than the counter does
  cases h_run : e.elapsed.run .debug with
  | error trap =>
    have h_counter := Checked.run_map_eq_error_iff.1 h_run
    exact absurd h_counter (Clock.not_error_of_counter h.board.origin_le)
  | ok n =>
    -- turns and count stay small, so the engine's time does too
    obtain ⟨count, -, rfl⟩ := Checked.run_map_eq_ok_iff.1 h_run
    have h_wrap := h.wrap_le
    have h_count := count.isLt
    refine ⟨_, rfl, ?_⟩
    simp only [ticksPerWrap, Width.size] at *
    omega

/-- **No arithmetic trap.** In the `debug` profile, in every state that an engine can reach on a
simulated board, whatever its configuration and the lag: the counter did not start and no pin that
is high rose after the present time, the ticks since the period started fit in 32 bits, and no
operation traps unless time, the starts of the timer or the violations run out. The product of
microseconds and ticks fits in 16 bits, the length of a period in 32, and the ticks of a ramp in
64. -/
theorem no_arithmetic_trap (h : Reached config lag now e) :
    e.WidthsSuffice ∧ (∀ us : UInt16, usToTicks us.toNat < 0x10000) ∧
      ∀ c : Config, c.periodTicks < Width.bits32.size ∧ ∀ distance speed : UInt16,
        rampPeriods distance.toNat speed.toNat < Width.bits32.size ∧
          rampPeriods distance.toNat speed.toNat * c.periodTicks < Width.bits64.size := by
  have h_e := h.holds
  refine ⟨⟨h_e.board.origin_le, h_e.board.roseBy, h_e.exists_elapsed, fun h_x => ?_⟩,
    fun us => ?_, fun c => ⟨?_, fun distance speed => ?_⟩⟩
  · -- an operation returns, or the trap is one of the four that the statement names
    refine (h_x.ends Bench.boardStable_inPast (fun _ h => h.confined) h_e ?_).mono
      (fun _ _ _ => trivial) fun _ h_trap => h_trap.board.exhausted
    -- no servo lies outside the table, so an engine's own checks raise no trap
    exact fun servo h_lt h_le => absurd h_lt (Nat.not_lt_of_le h_le)
  · exact Nat.lt_of_le_of_lt (usToTicks_le us.toNat) (by decide)
  · exact Nat.lt_trans c.periodTicks_lt (by decide)
  · -- both factors are below the size of sixteen bits
    have h_periods : rampPeriods distance.toNat speed.toNat < 0x10000 :=
      Nat.lt_of_le_of_lt (rampPeriods_le _ _) distance.toNat_lt
    have h_ticks := Nat.mul_lt_mul'' h_periods c.periodTicks_lt
    exact ⟨Nat.lt_trans h_periods (by decide), Nat.lt_trans h_ticks (by decide)⟩

/-! ### A state with a pulse in flight -/

theorem Reached.of_next? {op : Op} (h_run : Reached config lag now e)
    (h : op.next? .debug e = some e') : Reached config lag now e' := by
  -- each written operation is one that a reached state may take
  cases op with
  | advance ticks =>
    obtain ⟨⟨event, t⟩, h_result, rfl⟩ := Option.map_eq_some_iff.1 h
    obtain ⟨limit, clock, h_clock, rfl⟩ := run_advance_eq_ok (run_of_agreed? h_result .debug)
    refine h_run.operation (.wait (.board ⟨limit, rfl⟩)) (.inl ⟨event, ?_⟩)
    refine Action.run_zoom_eq_ok_iff.2 ⟨{ e.board with clock }, ?_, rfl⟩
    exact Action.run_zoom_eq_ok_iff.2 ⟨clock, h_clock, rfl⟩
  | interrupt =>
    obtain ⟨⟨⟨⟩, t⟩, h_result, rfl⟩ := Option.map_eq_some_iff.1 h
    exact h_run.operation (.wait .interrupt) (.inl ⟨⟨⟩, run_of_agreed? h_result .debug⟩)
  | start pins? =>
    obtain ⟨⟨r, t⟩, h_result, rfl⟩ := Option.map_eq_some_iff.1 h
    exact h_run.operation (.start pins?) (.inl ⟨r, Action.run_eq_ok_of_result? h_result⟩)
  | command k =>
    obtain ⟨⟨⟨⟩, t⟩, h_result, rfl⟩ := Option.map_eq_some_iff.1 h
    exact h_run.operation (.command k trivial) (.inl ⟨⟨⟩, Action.run_eq_ok_of_result? h_result⟩)

/-- What was replayed was reached. -/
theorem Reached.of_replay? {ops : List Op} (h_run : Reached config lag now e)
    (h : replay? .debug ops e = some e') : Reached config lag now e' := by
  -- induction on the operations written down
  induction ops generalizing e with
  | nil =>
    cases h
    exact h_run
  | cons op ops ih =>
    obtain ⟨t, h_first, h_rest⟩ := Option.bind_eq_some_iff.1 h
    exact ih (h_run.of_next? h_first) h_rest

/-- A pulse of 1500 µs in flight, with a lag. -/
def pulseInLag : Option (Engine (Bench PinRecorder)) :=
  replay? .debug
    [.start (some [2]), .command (.targetUs 0 1500), .advance 65536, .interrupt]
    (freshRecorded {} 100 0)

theorem isSome_pulseInLag : pulseInLag.isSome = true := by decide +kernel

theorem no_arithmetic_trap_pulseInLag :
    (pulseInLag.get isSome_pulseInLag).pins.state 2 = .high 65536 ∧
      (pulseInLag.get isSome_pulseInLag).WidthsSuffice := by
  have h_run := Reached.new.of_replay? (Option.some_get isSome_pulseInLag).symm
  exact ⟨by decide +kernel, (no_arithmetic_trap h_run).1⟩

end Engine

end ServoPulse
