import ServoPulse.Proofs.Observation
import ServoPulse.Proofs.StopLooks

/-!
# Stops that let every pulse end

A stop that serves every interrupt while it waits lets every pulse end when it is due, those that
were high when it was called and those that rise during it, exactly with the configurations of which
the looks find the gap (`stop_completes_iff`). The necessity is shown by one channel at the largest
target (`longPulse`), stopped in the place of its pulse from which no look finds the gap.

The check of a configuration compares the timeout with the longest pulse, and not with the poll
interval and the period, and so it accepts some with which a stop can step over every gap
(`not_forall_stop_completes`).
-/

namespace ServoPulse

namespace Engine

variable {P : Type} [PinBank P] [LawfulPinBank P]
  {older : List (Engine (Bench (Scope P)))} {e e' : Engine (Bench (Scope P))}

/-- Every pulse since the timer was last started has ended when it was due: the changes since then
are the scheduled ones up to now, and none of the pulses that began is still to end. -/
structure Completed (inForce : Nat → ChannelTable) (e : Engine (Bench (Scope P))) : Prop where
  edges_iff : ∀ x, (x ∈ e.edges ∧ ∃ t ∈ x.time?, e.clock.origin < t) ↔
    Scheduled e.config.wrapsPerPeriod.toNat e.clock.origin inForce e.clock.now x
  ended : ∀ k,
    ∀ c ∈ (inForce (periodStart e.config.wrapsPerPeriod.toNat e.clock.origin k)).step.active,
    periodStart e.config.wrapsPerPeriod.toNat e.clock.origin k ≤ e.clock.now →
      periodStart e.config.wrapsPerPeriod.toNat e.clock.origin k + c.position ≤ e.clock.now

/-- Shutting down while no pulse is in flight leaves every pulse complete. -/
theorem OnSchedule.completed {p : Profile} (h : OnSchedule older e) (h_lag : e.board.lag = 0)
    (h_on : e.started = true) (h_flight : e.pulseInFlight = false)
    (h_run : shutDown.run p e = .ok () e') : Completed (tableInForce (e :: older)) e' := by
  obtain ⟨n, late, h_time, h_before⟩ := h.onTime h_on
  have h_timely := h_time.timely
  have h_late := h_timely.late_eq_zero h_lag
  -- nothing is in flight, so the queue is empty and the shutdown lowers no pin
  have h_edges := edges_shutDown h_time.steady.orderly.tied (events_of_not_inFlight h_flight) h_run
  obtain ⟨pins, -, rfl⟩ := run_shutDown_eq_ok h_run
  -- the edges are those of the schedule, and every pulse begun has ended
  refine ⟨fun x => ?_, fun k c hc h_begun => ?_⟩
  · -- without lag an edge of the schedule is one the engine made
    rw [h_edges, scheduled_iff_made h_late]
    refine .trans ?_ (h_timely.edges_iff x)
    constructor
    · -- an edge after the origin is not one of those recorded before the start
      rintro ⟨hx, t, h_t, h_after⟩
      rw [← List.take_append_drop n e.edges, List.mem_append] at hx
      refine hx.resolve_left fun h_old => ?_
      obtain ⟨s, h_s, h_by⟩ := h_before x h_old
      obtain rfl := Option.some.inj (h_s.symm.trans h_t)
      exact Nat.not_le_of_lt h_after h_by
    · -- what was recorded since the start is a rise or fall of a period, so it comes later
      intro hx
      refine ⟨List.mem_of_mem_drop hx, ?_⟩
      obtain ⟨k, f, -, ⟨rfl, -⟩ | ⟨rfl, -⟩⟩ := (h_timely.edges_iff x).1 hx
      · exact ⟨_, rfl, lt_periodStart⟩
      · exact ⟨_, rfl, Nat.lt_add_right _ (Nat.lt_add_right _ lt_periodStart)⟩
  · -- an open pulse would leave its fall in the queue
    by_contra h_open
    obtain ⟨f, hf, h_due, -⟩ := ChannelTable.exists_fall hc (by omega)
    have h_some := h_time.inFlight_iff.2 ⟨k, f, hf, h_begun, h_due ▸ Nat.lt_of_not_le h_open⟩
    exact Bool.noConfusion (h_flight.symm.trans h_some)

omit [LawfulPinBank P] in
/-- A table that a step leaves as it is stays in force while every event is served at once. -/
theorem GoesOn.inForce_of_step_eq {older₁ : List (Engine (Bench (Scope P)))}
    {e₁ : Engine (Bench (Scope P))} (h : GoesOn older e older₁ e₁)
    (h_step : e.table.step = e.table) :
    e₁.table = e.table ∧ ∀ T, e.clock.now < T → tableInForce (e₁ :: older₁) T = e.table := by
  -- the table only changes by its step at a period start, which leaves it as it is here
  have h_stable : ServeStable fun t : Engine (Bench (Scope P)) => t.table = e.table :=
    .of_setup (Q := fun _ _ _ t => t = e.table) fun h => h.symm ▸ h_step
  -- induction on the links of the chain
  induction h with
  | refl => exact ⟨rfl, (renewed_tableInForce e older).new⟩
  | @next older₁ e₁ e₂ limit event _ h_next ih =>
    -- a wait without interrupt leaves the table, and an interrupt keeps it
    have h_table : e₂.table = e.table := by
      obtain ⟨clock, -, ⟨-, rfl⟩ | ⟨-, h_serve⟩⟩ := run_serveNext_eq_ok h_next
      · exact ih.1
      · exact h_stable.interrupt (e := e₁.withClock clock) ih.1 h_serve
    have h_renewed := renewed_tableInForce e₂ (e₁ :: older₁)
    refine ⟨h_table, fun T h_T => ?_⟩
    -- the table in force is the recorded one up to now and the new one after it
    by_cases h_old : T ≤ e₂.clock.now
    · exact (h_renewed.old T h_old).trans (ih.2 T h_T)
    · exact (h_renewed.new T (Nat.lt_of_not_le h_old)).trans h_table

/-- A stop of the engine `e` that serves every event while it waits returns under both profiles
without giving up, and leaves every pulse complete. -/
def StopCompletes (older : List (Engine (Bench (Scope P)))) (e : Engine (Bench (Scope P))) : Prop :=
  ∃ report e' older₁ e₁, (∀ q, (stopWith .serving).run q e = .ok report e') ∧
    report.forced = false ∧ GoesOn older e older₁ e₁ ∧ shutDown.run .debug e₁ = .ok () e' ∧
      Completed (tableInForce (e₁ :: older₁)) e'

section Recorded

variable {p : Profile} {config : Config} {now : Nat}
  {older older₁ : List (Engine (Bench (Scope PinRecorder)))}
  {e e₁ : Engine (Bench (Scope PinRecorder))}

/-- **Finding the gap.** Where the looks of the configuration find the gap, a stop never gives up:
one of its looks comes between the pulses, and so all of them are complete. -/
theorem stopCompletes_of_findsGap (h_gap : config.FindsGap)
    (h : CleanRun p (freshObserved config 0 now) older e) (h_on : e.started = true)
    (h_fits : e.clock.now + config.lookAfter config.maxPolls + ticksPerWrap < Width.bits64.size) :
    StopCompletes older e := by
  obtain ⟨h_handy, rfl⟩ := handy_of_cleanRun h
  obtain ⟨n, late, h_time, -⟩ := (onSchedule_of_cleanRun h).onTime h_on
  obtain ⟨report, e', h_run, older₁, e₁, h_waiting, h_down, h_forced, h_last⟩ :=
    returns_stopWith h_handy h_time h_fits
  -- a stop that gives up has made all its looks, and one of them came into the gap
  have h_flight : e₁.pulseInFlight = false := by
    by_contra h_some
    have h_cut := h_forced.trans (Bool.ne_false_iff.1 h_some)
    exact h_some (h_waiting.not_inFlight h_gap (h_last h_cut) h_time)
  obtain ⟨late', h_time₁⟩ := h_time.goesOn h_waiting.goesOn
  have h_clean := onSchedule_of_cleanRun (h.goesOn h_waiting.goesOn)
  -- the looks and the period after them fit into the clock
  have h_now : e.clock.now < Clock.instants := by
    change _ < Width.bits64.size
    omega
  -- what the debug run returns every profile returns
  have h_all := (run_of_run_debug (tracks_stopServing
    (Scope.pinsTrack_self PinRecorder.pinsTrack)) h_now h_run).1
  exact ⟨report, e', older₁, e₁, h_all, h_forced.trans h_flight, h_waiting.goesOn, h_down,
    h_clean.completed h_waiting.handy.lag_eq h_time₁.steady.started h_flight h_down⟩

/-! ### The longest pulse -/

/-- An engine that was started at the time 0 on pin 2. -/
def onPinTwo (config : Config) : Engine (Bench (Scope PinRecorder)) :=
  ((freshObserved config 0 0).relisted [2]).launched 1

theorem run_start_onPinTwo (h_valid : config.validate = .ok ()) :
    (start (some [2])).run .debug (freshObserved config 0 0) = .ok (.ok ()) (onPinTwo config) := by
  have h_check : (freshObserved config 0 0).checkStart (some [2]) = .ok () := by
    rw [checkStart, show (freshObserved config 0 0).config.validate = .ok () from h_valid]
    rfl
  rw [start, Action.run_get_bind, h_check]
  rfl

/-- One channel that pulses at the largest target. -/
def longPulse : ChannelTable := (ChannelTable.assign [2]).modify 0 (·.aim maxTargetTicks)

theorem step_longPulse : longPulse.step = longPulse := by decide

theorem mem_falls_longPulse : ⟨maxTargetTicks, 0, 2⟩ ∈ longPulse.falls := by decide

/-- That engine, told to pulse at the largest target. -/
def longPulsing (config : Config) : Engine (Bench (Scope PinRecorder)) :=
  { onPinTwo config with table := longPulse }

theorem cleanRun_longPulsing (h_valid : config.validate = .ok ()) :
    ∃ older, CleanRun .debug (freshObserved config 0 0) older (longPulsing config) := by
  have h_command : (Command.targetTicks 0 maxTargetTicks).exec.EndsIn .debug (onPinTwo config)
      (longPulsing config) := .inl ⟨⟨⟩, rfl⟩
  exact ⟨_, .command (.start .new (run_start_onPinTwo h_valid)) h_command⟩

/-- While that engine runs, a pulse is in flight wherever the longest one would be. -/
theorem inFlight_of_withinPulse (h_clean : CleanRun p (freshObserved config 0 0) older
      (longPulsing config)) (h_goes : GoesOn older (longPulsing config) older₁ e₁)
    (h_within : WithinPulse config.wrapsPerPeriod.toNat 0 e₁.clock.now) :
    e₁.pulseInFlight = true := by
  obtain ⟨n, late, h_time, -⟩ := (onSchedule_of_cleanRun h_clean).onTime rfl
  obtain ⟨late₁, h_time₁⟩ := h_time.goesOn h_goes
  obtain ⟨k, h_begun, h_open⟩ := h_within
  -- the table of the long pulse stays, so the pulse of its period falls where it should
  have h_table := (h_goes.inForce_of_step_eq step_longPulse).2
    (periodStart config.wrapsPerPeriod.toNat 0 k) lt_periodStart
  refine h_time₁.inFlight_iff.2 ⟨k, ⟨maxTargetTicks, 0, 2⟩, ?_, h_begun, h_open⟩
  change _ ∈ (tableInForce (e₁ :: older₁) (periodStart config.wrapsPerPeriod.toNat 0 k)).step.falls
  rw [h_table]
  exact step_longPulse.symm ▸ mem_falls_longPulse

/-- The engine runs to the place `x` of its first pulse. -/
theorem exists_goesOn_longPulsing {x : Nat} (hx : x < maxTargetTicks)
    (h_clean : CleanRun p (freshObserved config 0 0) older (longPulsing config)) :
    ∃ older' e, GoesOn older (longPulsing config) older' e ∧ e.clock.now = ticksPerWrap + x ∧
      e.started = true ∧ e.clock.origin = 0 := by
  have h_handy := (handy_of_cleanRun h_clean).1
  -- there is time enough to wait past the first overflow
  have h_returns : (run (ticksPerWrap + x)).Returns .debug (longPulsing config)
      fun _ e => Handy e := by
    refine h_handy.returns_run ?_
    change x < 60000 at hx
    change 0 + (65536 + x) + 65536 < 2 ^ 64
    omega
  obtain ⟨⟨⟩, e, h_run, -⟩ := h_returns
  obtain ⟨older', h_goes⟩ := servedOn_run _ h_run older
  obtain ⟨n, late, h_time, -⟩ := (onSchedule_of_cleanRun h_clean).onTime rfl
  obtain ⟨late', h_time'⟩ := h_time.goesOn h_goes
  exact ⟨older', e, h_goes, (now_of_run h_handy.lag_eq h_run).trans (Nat.zero_add _),
    h_time'.steady.started, h_time'.steady.origin_eq⟩

/-- **Missing the gap.** Stopped in the place of its pulse from which no look finds the gap, that
engine does not complete its pulses. -/
theorem exists_not_stopCompletes (h_valid : config.validate = .ok ()) (h_gap : ¬config.FindsGap) :
    ∃ older e, CleanRun .debug (freshObserved config 0 0) older e ∧ e.started = true ∧
      e.clock.now + config.lookAfter config.maxPolls + ticksPerWrap < Width.bits64.size ∧
        ¬StopCompletes older e := by
  -- from some point of the pulse on, each look that there is time for comes within a pulse
  simp only [Config.FindsGap, not_forall, not_exists, not_and, Nat.not_le] at h_gap
  obtain ⟨x, hx, h_in⟩ := h_gap
  obtain ⟨older₀, h_clean₀⟩ := cleanRun_longPulsing h_valid
  obtain ⟨older, e, h_goes, h_now, h_on, h_origin⟩ := exists_goesOn_longPulsing hx h_clean₀
  have h_clean := h_clean₀.goesOn h_goes
  obtain ⟨h_handy, h_config⟩ := handy_of_cleanRun h_clean
  -- the wait into the pulse is short beside the range of the clock
  have h_fits :
      e.clock.now + config.lookAfter config.maxPolls + ticksPerWrap < Width.bits64.size := by
    have h_long := config.lookAfter_maxPolls_lt
    rw [h_now]
    change 65536 + x + _ + 65536 < 2 ^ 64
    simp only [ticksPerMicrosecond, maxTargetTicks, Width.size] at *
    omega
  refine ⟨older, e, h_clean, h_on, h_fits, ?_⟩
  rintro ⟨report, e', -, -, h_stop, h_waited, -⟩
  -- a stop that returns unforced is compared with the one that has to be forced
  obtain ⟨m, late, h_time, -⟩ := (onSchedule_of_cleanRun h_clean).onTime h_on
  obtain ⟨report', e'', h_stop', older₁, e₁, h_waiting, -, h_forced, -⟩ :=
    returns_stopWith h_handy h_time (h_config.symm ▸ h_fits)
  -- one run gives one answer
  obtain ⟨rfl, rfl⟩ := EStateM.Result.ok.inj ((h_stop .debug).symm.trans h_stop')
  -- the last look falls into a pulse as well, like all of them
  have h_within : WithinPulse config.wrapsPerPeriod.toNat 0 e₁.clock.now := by
    have h_first : periodStart config.wrapsPerPeriod.toNat 0 0 = ticksPerWrap := by
      rw [periodStart, Nat.zero_mul, Nat.zero_add, Nat.add_zero, Nat.mul_one]
    rw [withinPulse_iff (h_config ▸ h_time.steady.wraps_pos), h_first, h_waiting.now_eq, h_config,
      h_now, Nat.add_assoc, Nat.add_sub_cancel_left]
    exact ⟨Nat.le_add_right _ _, h_in _ (h_config ▸ h_waiting.polls_le)⟩
  -- a pulse is in flight at the last look, so the stop was forced after all
  have h_flight := inFlight_of_withinPulse h_clean₀ (h_goes.trans h_waiting.goesOn) h_within
  exact Bool.noConfusion ((h_forced.trans h_flight).symm.trans h_waited)

/-- **Stops.** In clean runs without lag, a stop that serves every event while it waits never gives
up, and every pulse that was high when it was called or that rises while it waits ends when it is
due, exactly with the configurations whose looks find the gap. Time has to reach to the last look.
-/
theorem stop_completes_iff (h_valid : config.validate = .ok ()) :
    config.FindsGap ↔ ∀ {p : Profile} {now : Nat}
      {older : List (Engine (Bench (Scope PinRecorder)))} {e : Engine (Bench (Scope PinRecorder))},
      CleanRun p (freshObserved config 0 now) older e → e.started = true →
        e.clock.now + config.lookAfter config.maxPolls + ticksPerWrap < Width.bits64.size →
          StopCompletes older e := by
  -- from right to left a configuration without gap has a run that is cut
  refine ⟨fun h_gap {p now older e} => stopCompletes_of_findsGap h_gap, fun h_all => ?_⟩
  by_contra h_gap
  obtain ⟨older, e, h_clean, h_on, h_fits, h_not⟩ := exists_not_stopCompletes h_valid h_gap
  exact h_not (h_all h_clean h_on h_fits)

end Recorded

/-- A run to the middle of a pulse, with the default configuration. -/
def midPulseRun :
    Option (List (Engine (Bench (Scope PinRecorder))) × Engine (Bench (Scope PinRecorder))) :=
  replayPrompt? .debug [.command (.targetTicks 0 36000), .serve 65536, .serve 80000]
    ([], onPinTwo {})

theorem isSome_midPulseRun : midPulseRun.isSome = true := by decide +kernel

theorem cleanRun_midPulseRun :
    CleanRun .debug (freshObserved {} 0 0) ((midPulseRun.get isSome_midPulseRun).1 ++
      [freshObserved {} 0 0]) (midPulseRun.get isSome_midPulseRun).2 := by
  have h_replay := (Option.some_get isSome_midPulseRun).symm
  exact (promptRun_of_replayPrompt? (.first (run_start_onPinTwo rfl)) h_replay).clean

theorem stop_completes_iff_midPulseRun :
    ({} : Config).validate = .ok () ∧ ({} : Config).FindsGap ∧
      (midPulseRun.get isSome_midPulseRun).2.pulseInFlight = true ∧
      StopCompletes ((midPulseRun.get isSome_midPulseRun).1 ++ [freshObserved {} 0 0])
        (midPulseRun.get isSome_midPulseRun).2 := by
  have h_gap : ({} : Config).FindsGap := Config.findsGap_of_le rfl (by decide)
  refine ⟨rfl, h_gap, by decide +kernel, ?_⟩
  exact (stop_completes_iff rfl).1 h_gap cleanRun_midPulseRun (by decide +kernel)
    (by decide +kernel)

/-- A configuration with which the looks are 300 µs apart and the gap is 230 µs long. -/
def slowPoll : Config := { wrapsPerPeriod := 1, stopTimeoutUs := 2500, stopPollUs := 300 }

/-- A run with the longest pulse, to 50 µs after the first of them rose. -/
def slowPollRun :
    Option (List (Engine (Bench (Scope PinRecorder))) × Engine (Bench (Scope PinRecorder))) :=
  replayPrompt? .debug [.command (.targetTicks 0 60000), .serve 65536, .serve 66736]
    ([], onPinTwo slowPoll)

theorem isSome_slowPollRun : slowPollRun.isSome = true := by decide +kernel

/-- A stop after that run. -/
def slowPollStop : Option (StopReport × Engine (Bench (Scope PinRecorder))) :=
  (stopWith .serving).result? .debug (slowPollRun.get isSome_slowPollRun).2

theorem isSome_slowPollStop : slowPollStop.isSome = true := by decide +kernel

/-- A stop can give up although every interrupt is served: after `slowPollRun` each of its looks
finds a pulse, the last one the pulse of the next period. -/
theorem not_forall_stop_completes :
    ¬ ∀ (config : Config) (older : List (Engine (Bench (Scope PinRecorder))))
      (e : Engine (Bench (Scope PinRecorder))), config.validate = .ok () →
      CleanRun .debug (freshObserved config 0 0) older e → e.started = true →
      e.clock.now + config.lookAfter config.maxPolls + ticksPerWrap < Width.bits64.size →
        StopCompletes older e := by
  -- the slow poll is accepted, and its pulse on pin two is cut by the forced stop
  intro h_all
  have h_replay := (Option.some_get isSome_slowPollRun).symm
  have h_clean := (promptRun_of_replayPrompt? (.first (run_start_onPinTwo rfl)) h_replay).clean
  obtain ⟨report, e', -, -, h_run, h_waited, -⟩ :=
    h_all slowPoll _ _ rfl h_clean (by decide +kernel) (by decide +kernel)
  have h_stop : slowPollStop = some (report, e') := by
    rw [slowPollStop, Action.result?, h_run .debug]
  have h_forced : slowPollStop.map (·.1.forced) = some true := by decide +kernel
  rw [h_stop] at h_forced
  exact Bool.noConfusion ((Option.some.inj h_forced).symm.trans h_waited)

/-- The second pulse of that run is 464 ticks wide and not 60000. -/
example : (slowPollStop.get isSome_slowPollStop).2.edges =
    [.rise 65536 2, .fall 125536 2, .rise 131072 2, .fall 131536 2] := by
  decide +kernel

end Engine

end ServoPulse
