import ServoPulse.Proofs.Delays
import ServoPulse.Proofs.Polls

/-!
# How long a stop waits

A stop compares the time it has waited with the timeout before each wait, and then waits for a whole
poll interval. So the waits add up to less than the timeout and one interval more, and they may go
past the timeout by the rest of an interval. They never do so exactly with the configurations of
which the poll interval divides the timeout (`stop_within_timeout_iff`).

That the others do is seen on one run, the same for all of them (`exists_pulsing`): the engine is
stopped at the beginning of its first pulse, and no time passes while it waits.
-/

namespace ServoPulse

namespace Engine

/-! ### At most one interval more -/

section Bound

variable {β : Type} [Board β] {p : Profile} {e e' : Engine β}
  {wait : Nat → Action (Engine β) Unit} {report : StopReport}

/-- A wait begins only before the timeout, so it ends less than an interval after it. -/
theorem polls_of_run_awaitFalls {poll timeout fuel i : Nat}
    (h_timeout : timeout ≤ Width.bits32.last)
    (h_i : i * poll < timeout + poll)
    (h : (awaitFalls wait poll timeout fuel i (min (i * poll) Width.bits32.last)).run p e =
      .ok report e') :
    report.polls * poll < timeout + poll := by
  -- `i` is the number of waits so far, and what they add up to is held back only by 32 bits
  induction fuel generalizing i e with
  | zero =>
    -- no fuel, no further wait
    obtain ⟨⟨⟩, t, -, h⟩ := Action.run_bind_eq_ok_iff.1 h
    obtain ⟨rfl, -⟩ := Action.run_pure_eq_ok_iff.1 h
    exact h_i
  | succ fuel ih =>
    rw [awaitFalls, Action.run_get_bind] at h
    -- one more wait: a pulse is in flight and the time is not up
    by_cases h_go : e.pulseInFlight = true ∧ min (i * poll) Width.bits32.last < timeout
    · rw [if_pos h_go] at h
      obtain ⟨⟨⟩, t, -, h⟩ := Action.run_bind_eq_ok_iff.1 h
      -- the sum is less than the timeout, so the 32 bits have not held it back
      have h_soon : i * poll < timeout := by
        have h_lt := h_go.2
        omega
      have h_next : addWait (min (i * poll) Width.bits32.last) poll =
          min ((i + 1) * poll) Width.bits32.last := by
        rw [addWait, Nat.add_one_mul]
        omega
      rw [h_next] at h
      refine ih ?_ h
      rw [Nat.add_one_mul]
      exact Nat.add_lt_add_right h_soon poll
    · -- the last look adds no wait
      rw [if_neg h_go] at h
      obtain ⟨⟨⟩, t, -, h⟩ := Action.run_bind_eq_ok_iff.1 h
      obtain ⟨rfl, -⟩ := Action.run_pure_eq_ok_iff.1 h
      exact h_i

/-- The waits of a stop add up to less than the timeout and one interval more. -/
theorem polls_of_run_stop (h_poll : 0 < e.config.stopPollUs.toNat)
    (h : (stop wait).run p e = .ok report e') :
    report.polls * e.config.stopPollUs.toNat <
      e.config.stopTimeoutUs.toNat + e.config.stopPollUs.toNat := by
  -- the first look is made before any wait
  have h_none : 0 * e.config.stopPollUs.toNat <
      e.config.stopTimeoutUs.toNat + e.config.stopPollUs.toNat := by omega
  rw [stop, Action.run_get_bind] at h
  split at h
  · have h_timeout : e.config.stopTimeoutUs.toNat ≤ Width.bits32.last :=
      Nat.le_of_lt_succ e.config.stopTimeoutUs.toNat_lt
    have h_await : (awaitFalls wait e.config.stopPollUs.toNat e.config.stopTimeoutUs.toNat
        (e.config.stopTimeoutUs.toNat + 1) 0
        (min (0 * e.config.stopPollUs.toNat) Width.bits32.last)).run p e = .ok report e' := by
      rw [Nat.zero_mul, Nat.zero_min]
      exact h
    exact polls_of_run_awaitFalls h_timeout h_none h_await
  · -- an engine that is off reports no waits
    obtain ⟨rfl, -⟩ := Action.run_pure_eq_ok_iff.1 h
    exact h_none

end Bound

/-! ### At the beginning of the first pulse -/

section Pulsing

variable {config : Config}

/-- An engine that was started at the time 0 on pin 2. -/
def onOnePin (config : Config) : Engine (Bench PinRecorder) :=
  ((freshRecorded config 0 0).relisted [2]).launched 1

/-- One channel that pulses. -/
def onePulse : ChannelTable := (ChannelTable.assign [2]).modify 0 (·.aim maxTargetTicks)

/-- That engine, told to pulse. -/
def aimed (config : Config) : Engine (Bench PinRecorder) :=
  { onOnePin config with table := onePulse }

/-- Its clock at the first overflow. -/
def overflown : Clock :=
  { now := ticksPerWrap, running := true, overflowPending := true, starts := 1 }

theorem run_start_onOnePin (h_valid : config.validate = .ok ()) :
    (start (some [2])).run .debug (freshRecorded config 0 0) = .ok (.ok ()) (onOnePin config) := by
  have h_check : (freshRecorded config 0 0).checkStart (some [2]) = .ok () := by
    rw [checkStart, show (freshRecorded config 0 0).config.validate = .ok () from h_valid]
    rfl
  rw [start, Action.run_get_bind, h_check]
  rfl

theorem run_advanceUntil_overflown :
    (Clock.advanceUntil ticksPerWrap).run .debug { running := true, starts := 1 } =
      .ok true overflown :=
  Action.run_eq_ok_of_result? (by decide +kernel)

theorem run_advance_aimed (config : Config) :
    (advance ticksPerWrap).run .debug (aimed config) =
      .ok true ((aimed config).withClock overflown) := by
  rw [advance, Action.run_get_bind]
  -- the timer is started at zero, so the limit is one turn of the counter
  have h_limit : ((aimed config).after ticksPerWrap).run .debug = .ok ticksPerWrap := by
    have h_sum : (Checked.add .bits64 0 ticksPerWrap).run .debug = .ok (0 + ticksPerWrap) :=
      Checked.run_add_of_lt (by decide) .debug
    rw [Nat.zero_add] at h_sum
    exact h_sum
  have h_clock : (Clock.advanceUntil ticksPerWrap).run .debug (aimed config).clock =
      .ok true overflown := by
    have h_clock : (aimed config).clock = { running := true, starts := 1 } := rfl
    rw [h_clock]
    exact run_advanceUntil_overflown
  have h_board : (Bench.onClock (Clock.advanceUntil ticksPerWrap)).run .debug (aimed config).board =
      .ok true { (aimed config).board with clock := overflown } :=
    -- on the simulated board a step of the board is a step of its clock
    Action.run_zoom_eq_ok_iff.2 ⟨overflown, h_clock, rfl⟩
  have h_engine : (onClock (Clock.advanceUntil ticksPerWrap)).run .debug (aimed config) =
      .ok true ((aimed config).withClock overflown) :=
    Action.run_zoom_eq_ok_iff.2 ⟨_, h_board, rfl⟩
  exact Action.run_liftM_bind_eq_ok_iff.2 ⟨_, h_limit, h_engine⟩

/-- Its clock when the overflow is served, as the compare channel is armed or not. -/
def served (compare : Option Count) : Clock :=
  { now := ticksPerWrap, running := true, compare, starts := 1 }

/-- The end of its first pulse. -/
def firstFall : Fall := ⟨maxTargetTicks, 0, 2⟩

/-- That engine at the beginning of its first pulse. -/
def pulsing (config : Config) (compare : Option Count) : Engine (Bench PinRecorder) :=
  { aimed config with
    board :=
      { clock := served compare
        pins := (PinBank.prepareAll [2] ({} : PinRecorder)).setState 2 (.high ticksPerWrap) }
    table := onePulse.step
    queue := ⟨[firstFall]⟩
    wrap := 0
    phase := .emitting
    periods := 1 }

theorem run_beginPeriod_aimed (config : Config) :
    beginPeriod.run .debug { ((aimed config).withClock overflown).quiet with wrap := 0 } =
      .ok () (pulsing config none) := rfl

theorem run_elapsed_pulsing (config : Config) (compare : Option Count) :
    (pulsing config compare).elapsed.run .debug = .ok 0 := by
  have h_count : (pulsing config compare).clock.count = 0 := Nat.mod_self ticksPerWrap
  rw [run_elapsed_of_origin_le fun _ => Nat.zero_le _, seen_of_running rfl, h_count, Nat.add_zero]
  exact congrArg _ (Nat.zero_mul ticksPerWrap)

theorem run_armCompare_pulsing (config : Config) :
    (onBoard (Board.armCompare firstFall.compareValue)).run .debug (pulsing config none) =
      .ok () (pulsing config firstFall.compareValue) := by
  -- arming takes no time on this board
  have h_pass : (Clock.passUntil ticksPerWrap).run .debug (served firstFall.compareValue) =
      .ok () (served firstFall.compareValue) :=
    Action.run_eq_ok_of_result? (by decide +kernel)
  have h_board : (Bench.armCompare firstFall.compareValue).run .debug (pulsing config none).board =
      .ok () (pulsing config firstFall.compareValue).board := by
    rw [Bench.armCompare, Action.run_modify_bind, Action.run_get_bind]
    refine Action.run_liftM_bind_eq_ok_iff.2 ⟨ticksPerWrap, rfl, ?_⟩
    exact Action.run_zoom_eq_ok_iff.2 ⟨_, h_pass, rfl⟩
  exact Action.run_zoom_eq_ok_iff.2 ⟨_, h_board, rfl⟩

/-- The fall is ahead when the clock is looked at, before the compare channel is armed and after
it. -/
theorem run_fallDue_pulsing (config : Config) :
    fallDue.run .debug (pulsing config none) = .ok () (pulsing config firstFall.compareValue) := by
  have h_ahead : ¬firstFall.due ≤ 0 := by decide
  -- even the longest pulse ends in the first turn of the counter
  have h_wrap : firstFall.wrap = (pulsing config none).wrap := Fall.wrap_eq_zero (Nat.le_refl _)
  rw [fallDue, Action.run_get_bind]
  refine Action.run_liftM_bind_eq_ok_iff.2 ⟨0, run_elapsed_pulsing config none, ?_⟩
  -- the first fall is ahead and in this turn, so it is armed for
  change (settle 0 [firstFall]).run .debug (pulsing config none) = _
  rw [settle, if_neg h_ahead, Action.run_get_bind, if_neg (not_not_intro h_wrap)]
  refine Action.run_bind_eq_ok_iff.2 ⟨⟨⟩, _, run_armCompare_pulsing config, ?_⟩
  -- read again: no time has passed, and the fall is still ahead
  rw [Action.run_get_bind]
  refine Action.run_liftM_bind_eq_ok_iff.2 ⟨0, run_elapsed_pulsing config _, ?_⟩
  rw [if_neg h_ahead]
  rfl

/-- The first overflow begins a period, however many turns of the counter a period has. -/
theorem run_interrupt_overflown (h_valid : config.validate = .ok ()) :
    interrupt.run .debug ((aimed config).withClock overflown) =
      Action.run (do beginPeriod; fallDue) .debug
        { ((aimed config).withClock overflown).quiet with wrap := 0 } := by
  obtain ⟨h_wraps, -⟩ := config.validate_eq_ok_iff.1 h_valid
  -- an engine that was just started takes the first overflow for the end of a period
  have h_le := Nat.le_of_lt_succ config.wrapsPerPeriod.toNat_lt
  have h_turn : turn.run .debug ((aimed config).withClock overflown).quiet =
      beginPeriod.run .debug { ((aimed config).withClock overflown).quiet with wrap := 0 } := by
    rw [turn, Action.run_modify_bind, Action.run_get_bind, if_pos]
    · rfl
    · show config.wrapsPerPeriod.toNat ≤ min (config.wrapsPerPeriod.toNat - 1 + 1) 255
      omega
  calc interrupt.run .debug ((aimed config).withClock overflown)
      = Action.run (do turn; fallDue) .debug ((aimed config).withClock overflown).quiet := rfl
    _ = Action.run (do beginPeriod; fallDue) .debug
          { ((aimed config).withClock overflown).quiet with wrap := 0 } := by
        rw [Action.run_bind, Action.run_bind, h_turn]

/-- With every valid configuration there is a run to a pulse in flight. -/
theorem exists_pulsing (h_valid : config.validate = .ok ()) :
    ∃ e, Steps .debug true (freshRecorded config 0 0) e ∧ e.started = true ∧ e.config = config ∧
      e.pulseInFlight = true := by
  have h_command : (Command.targetTicks 0 maxTargetTicks).exec.EndsIn .debug (onOnePin config)
      (aimed config) := .inl ⟨⟨⟩, rfl⟩
  -- the clock of this engine is at zero
  have h_now : (aimed config).clock.now < Clock.instants := by
    show 0 < Clock.instants
    decide
  -- one overflow later the period begins, and its first fall is pending
  have h_advance := moment_of_run_advance h_now (run_advance_aimed config)
  have h_run : interrupt.run .debug ((aimed config).withClock overflown) =
      .ok () (pulsing config firstFall.compareValue) := by
    rw [run_interrupt_overflown h_valid, Action.run_bind, run_beginPeriod_aimed]
    exact run_fallDue_pulsing config
  have h_interrupt := moment_of_run_interrupt h_advance.2 h_run
  -- four steps: start, target, the turn of the counter and the interrupt
  refine ⟨pulsing config firstFall.compareValue, ?_, rfl, rfl, rfl⟩
  exact .tail (.tail (.tail (.single (.start (run_start_onOnePin h_valid))) (.command h_command))
    (.moment h_advance.1)) (.moment h_interrupt.1)

/-- Stopped there while no time passes, the engine waits until the timeout is over. -/
theorem exists_run_stop_still (h_valid : config.validate = .ok ()) :
    ∃ e report e', Steps .debug true (freshRecorded config 0 0) e ∧ e.started = true ∧
      (stop fun _ => pure ()).run .debug e = .ok report e' ∧
        config.stopTimeoutUs.toNat ≤ report.polls * config.stopPollUs.toNat := by
  obtain ⟨e, h_steps, h_on, rfl, h_flight⟩ := exists_pulsing h_valid
  obtain ⟨-, -, h_poll⟩ := e.config.validate_eq_ok_iff.1 h_valid
  -- a fresh recorder has room for all that can be asked of it
  have h_ready : LowerablePins.Ready 0 [] ({} : PinRecorder) := ⟨PinRecorder.hasRoom_new 0, nofun⟩
  have h_landing := (Landing.stable true).steps (Landing.initial h_ready) h_steps
  -- the waits change nothing, so every look finds the pulse still in flight
  obtain ⟨report, e', h_run, s, rfl, -, h_forced, h_last⟩ :=
    returns_stop (I := fun _ s => s = e) h_on h_valid (p := .debug)
      (fun i s h_s _ _ => Action.Returns.pure h_s)
      (fun i s h_s => by
        obtain ⟨t, h_down⟩ := (h_s ▸ h_landing : Landing s).returns_shutDown (p := .debug)
        exact ⟨⟨⟩, t, h_down, trivial⟩)
      rfl
  exact ⟨s, report, e', h_steps, h_on, h_run,
    (Config.maxPolls_le_iff h_poll).1 (h_last (h_forced.trans h_flight))⟩

/-- **The length of a wait.** The waits of a stop add up to less than the timeout and one poll
interval more, on every board and whatever happens while it waits. They add up to at most the
timeout, on every bench, after every run and whatever happens, exactly with the configurations of
which the interval divides the timeout. -/
theorem stop_within_timeout_iff (h_valid : config.validate = .ok ()) :
    (∀ {β : Type} [Board β] {p : Profile} {e e' : Engine β} {wait : Nat → Action (Engine β) Unit}
      {report : StopReport}, e.config = config → (stop wait).run p e = .ok report e' →
        report.polls * config.stopPollUs.toNat <
          config.stopTimeoutUs.toNat + config.stopPollUs.toNat) ∧
      (config.stopPollUs.toNat ∣ config.stopTimeoutUs.toNat ↔
        ∀ {P : Type} [PinBank P] [LawfulPinBank P] {p : Profile} {lag now : Nat} {pins : P}
          {e e' : Engine (Bench P)} {wait : Nat → Action (Engine (Bench P)) Unit}
          {report : StopReport}, Steps p true (fresh config lag now pins) e → e.started = true →
            (∀ k, Action.Keeps Moments p (wait k)) → (stop wait).run p e = .ok report e' →
              report.polls * config.stopPollUs.toNat ≤ config.stopTimeoutUs.toNat) := by
  obtain ⟨-, -, h_poll⟩ := config.validate_eq_ok_iff.1 h_valid
  -- the bound that holds of every stop, and the condition for the other one
  refine ⟨?_, ?_, ?_⟩
  · rintro β _ p e e' wait report rfl h_run
    exact polls_of_run_stop h_poll h_run
  · rintro ⟨n, h_n⟩ P _ _ p lag now pins e e' wait report h_steps h_on h_wait h_run
    have h_stable : Stable p true fun e : Engine (Bench P) =>
        Prepared e ∧ e.config = config ∧ e.board.lag = lag :=
      (Prepared.stable true).and (setup_stableUnder config lag)
    obtain ⟨-, rfl, -⟩ := h_stable.steps ⟨.initial config lag now pins, rfl, rfl⟩ h_steps
    -- less than one interval more, in whole intervals, is no more
    have h_lt := polls_of_run_stop h_poll h_run
    rw [h_n, Nat.mul_comm _ n, ← Nat.add_one_mul] at h_lt
    have h_le : report.polls ≤ n := Nat.le_of_lt_succ (Nat.lt_of_mul_lt_mul_right h_lt)
    rw [h_n, Nat.mul_comm _ n]
    exact Nat.mul_le_mul_right _ h_le
  · -- conversely, a stop that never sees the pulse end waits its timeout out
    intro h_all
    -- waits that add up to at least the timeout, and to no more, add up to it
    obtain ⟨e, report, e', h_steps, h_on, h_run, h_ge⟩ := exists_run_stop_still h_valid
    have h_le := h_all h_steps h_on (fun _ => Action.Keeps.pure ()) h_run
    exact ⟨report.polls, (Nat.le_antisymm h_ge h_le).trans (Nat.mul_comm _ _)⟩

end Pulsing

/-- A stop after `pulsingRun`, in which no time passes. -/
def stillStop (poll timeout : UInt32) : Option (StopReport × Engine (Bench PinRecorder)) :=
  (pulsingRun poll timeout).bind fun e => (stop fun _ => pure ()).result? .debug e

theorem steps_stillStop {poll timeout : UInt32} {x : StopReport × Engine (Bench PinRecorder)}
    (h : stillStop poll timeout = some x) :
    ∃ e, pulsingRun poll timeout = some e ∧
      Steps .debug true (freshRecorded { stopPollUs := poll, stopTimeoutUs := timeout } 0 0) e ∧
        (stop fun _ => pure ()).run .debug e = .ok x.1 x.2 := by
  obtain ⟨e, h_run, h_stop⟩ := Option.bind_eq_some_iff.1 h
  exact ⟨e, h_run, steps_of_replay? h_run true, Action.run_eq_ok_of_result? h_stop⟩

/-- The default interval of 10 microseconds divides the default timeout of 2800. -/
theorem stop_within_timeout_iff_default :
    ∃ x, stillStop 10 2800 = some x ∧ x.1.polls * 10 ≤ 2800 := by
  -- the stop is computed, and the steps that lead to it are those of a run
  have h_some : (stillStop 10 2800).isSome = true := by decide +kernel
  obtain ⟨x, h_x⟩ := Option.isSome_iff_exists.1 h_some
  obtain ⟨e, h_run, h_steps, h_stop⟩ := steps_stillStop h_x
  have h_on : (pulsingRun 10 2800).map started = some true := by decide +kernel
  rw [h_run] at h_on
  have h_valid : Config.validate { stopPollUs := 10, stopTimeoutUs := 2800 } = .ok () := rfl
  refine ⟨x, h_x, (stop_within_timeout_iff h_valid).2.1 (by decide) h_steps ?_ ?_ h_stop⟩
  · exact Option.some.inj h_on
  · exact fun _ => Action.Keeps.pure ()

/-- The waits do not always add up to at most the timeout: nine intervals of 300 microseconds go
200 past a timeout of 2500. -/
theorem not_forall_stop_within_timeout :
    ¬ ∀ (config : Config), config.validate = .ok () →
      ∀ (e e' : Engine (Bench PinRecorder)) (wait : Nat → Action (Engine (Bench PinRecorder)) Unit)
        (report : StopReport), Steps .debug true (freshRecorded config 0 0) e →
        e.started = true → (∀ k, Action.Keeps Moments .debug (wait k)) →
        (stop wait).run .debug e = .ok report e' →
          report.polls * config.stopPollUs.toNat ≤ config.stopTimeoutUs.toNat := by
  intro h_all
  -- nine waits of three hundred microseconds, for a timeout of two and a half thousand
  have h_shown : (stillStop 300 2500).map (·.1.polls) = some 9 := by decide +kernel
  obtain ⟨x, h_x, h_polls⟩ := Option.map_eq_some_iff.1 h_shown
  obtain ⟨e, h_run, h_steps, h_stop⟩ := steps_stillStop h_x
  have h_on : (pulsingRun 300 2500).map started = some true := by decide +kernel
  rw [h_run] at h_on
  have h_le := h_all { stopPollUs := 300, stopTimeoutUs := 2500 } rfl e x.2 _ x.1 h_steps
    (Option.some.inj h_on) (fun _ => Action.Keeps.pure ()) h_stop
  rw [h_polls] at h_le
  exact absurd h_le (by decide)

end Engine

end ServoPulse
