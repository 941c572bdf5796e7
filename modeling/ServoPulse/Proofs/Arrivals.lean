import ServoPulse.Proofs.Cadence
import ServoPulse.Proofs.PulseSchedule

/-!
# Arrivals

When the channels of an engine arrive at their targets (`ramp_prediction`). On any board a channel
arrives as many periods later as `rampPeriods` says, however the interrupts come, and the moving
flag is up until the period after the last arrival. On a bench without lag that serves every event
at once, a channel arrives a whole number of periods after the last one that began, and
`Config.rampDurationUs` is that time.

The time is that of the schedule, since the engine keeps the cadence of the periods
(`paced_of_promptRun`, `Paced.coast`). No number on the way leaves its width, since the table is
sound.
-/

namespace ServoPulse

/-- A channel in range arrives after a number of ticks that fits its width. -/
theorem Channel.InRange.ramp_lt {c : Channel} (h : c.InRange) (config : Config) :
    c.distance ≤ maxTargetTicks ∧
      rampPeriods c.distance c.speed * config.periodTicks < Width.bits64.size := by
  have h_target := h.target_le
  have h_position := h.position_le
  have h_distance : c.distance ≤ maxTargetTicks := by
    unfold Channel.distance
    omega
  refine ⟨h_distance, ?_⟩
  -- a ramp takes at most one period for each tick of its distance
  have h_periods := Nat.le_trans (rampPeriods_le c.distance c.speed) h_distance
  calc rampPeriods c.distance c.speed * config.periodTicks
      ≤ maxTargetTicks * 0x1000000 :=
        Nat.mul_le_mul h_periods (Nat.le_of_lt config.periodTicks_lt)
    _ < Width.bits64.size := by decide

namespace Engine

variable {P : Type} [PinBank P] {p : Profile} {wraps origin m : Nat}
  {older : List (Engine (Bench P))} {e e' e₀ : Engine (Bench P)}

/-! ### Prompt runs keep the cadence -/

namespace Paced

omit [PinBank P] in
theorem command {k : Command} (h : Paced wraps origin m e) (h_end : k.exec.EndsIn p e e') :
    Paced wraps origin m e' ∧ e'.periods = e.periods := by
  rcases endsIn_exec h_end with rfl | ⟨moving, rfl⟩
  · exact ⟨h, rfl⟩
  · exact ⟨h.of_timer rfl ⟨rfl, rfl⟩ h.not_halted ⟨rfl, rfl, rfl, rfl⟩ rfl, rfl⟩

theorem start {pins? : Option (List Nat)} {r : Except StartError Unit} (h : Paced wraps origin m e)
    (h_run : (Engine.start pins?).run p e = .ok r e') :
    Paced wraps origin m e' ∧ e'.periods = e.periods := by
  rcases run_start_eq_ok h_run with ⟨-, rfl⟩ | ⟨-, -, t, h_list, ⟨-, rfl⟩ | ⟨h_off, -⟩⟩
  · exact ⟨h, rfl⟩
  · cases h_list <;>
      exact ⟨h.of_timer rfl ⟨rfl, rfl⟩ h.not_halted ⟨rfl, rfl, rfl, rfl⟩ rfl, rfl⟩
  · exact Bool.noConfusion (h.started.symm.trans h_off)

omit [PinBank P] in
/-- No period has begun in an engine that was just launched. -/
theorem initial {starts : Nat} (h_lag : e.board.lag = 0) (h_valid : e.config.validate = .ok ()) :
    Paced e.config.wrapsPerPeriod.toNat e.clock.now 0 (e.launched starts) where
  lag_eq := h_lag
  wraps_eq := rfl
  started := rfl
  not_halted := nofun
  running := rfl
  origin_eq := rfl
  origin_le := Nat.le_refl _
  overflow_flag := rfl
  wrap_lt := Nat.sub_lt (e.config.validate_eq_ok_iff.1 h_valid).1 Nat.one_pos
  turns_eq := by
    -- the counter starts from zero, in the last turn of a period
    change (e.clock.now - e.clock.now) / ticksPerWrap + _ = 0 * _ + (_ - 1)
    rw [Nat.sub_self, Nat.zero_div, Nat.zero_mul]

end Paced

/-- The time at which the last period began in a run, where the states stand from the last to the
first: that of the last state at which more periods were counted than just before. -/
def lastBegun? : List (Engine (Bench P)) → Option Nat
  | e' :: e :: older =>
    if e'.periods = e.periods then lastBegun? (e :: older) else some e'.clock.now
  | _ => none

/-- The start of the last of the first `m` periods, if there is one. -/
def lastStart? (wraps origin : Nat) : (m : Nat) → Option Nat
  | 0 => none
  | j + 1 => some (periodStart wraps origin j)

omit [PinBank P] in
theorem lastBegun?_of_eq (h : e'.periods = e.periods) :
    lastBegun? (e' :: e :: older) = lastBegun? (e :: older) := by
  rw [lastBegun?, if_pos h]

/-- Serving the next event at once keeps the cadence, and the start of the last period is known. -/
theorem Paced.Next.exists_paced (h : Paced.Next wraps origin m e e')
    (h_last : lastBegun? (e :: older) = lastStart? wraps origin m) :
    ∃ k, Paced wraps origin k e' ∧ lastBegun? (e' :: e :: older) = lastStart? wraps origin k := by
  rcases h with ⟨h_e', h_same⟩ | ⟨h_e', h_begun, h_start⟩
  · -- no period began, so the last one is the same
    exact ⟨m, h_e', (lastBegun?_of_eq (congrArg Panel.periods h_same)).trans h_last⟩
  · have h_ne : e'.periods ≠ e.periods := by
      -- the count wraps around, but one more is never the same
      intro h_eq
      have h_one := periodsSince_of_begun h_begun
      rw [periodsSince, h_eq, UInt32.sub_self] at h_one
      exact absurd h_one (by decide)
    -- one more period began, at the time it should
    refine ⟨m + 1, h_e', ?_⟩
    rw [lastBegun?, if_neg h_ne, h_start]
    rfl

variable [FixedBank P]

/-- **Cadence of a prompt run.** Where nothing takes time and every event is served at once, the
engine is paced, and the last period began where the schedule has it. -/
theorem paced_of_promptRun (h_lag : e₀.board.lag = 0) (h_off : e₀.started = false)
    (h : PromptRun p e₀ older e) :
    ∃ m, Paced e₀.config.wrapsPerPeriod.toNat e₀.clock.now m e ∧
      lastBegun? (e :: older) = lastStart? e₀.config.wrapsPerPeriod.toNat e₀.clock.now m := by
  induction h with
  | first h =>
    -- the timer starts with the run, and no period has begun by then
    rcases run_start_eq_ok h with ⟨⟨error, h_error⟩, -⟩ | ⟨-, h_valid, t, h_list, h_rest⟩
    · exact absurd h_error nofun
    rcases h_rest with ⟨h_on, -⟩ | ⟨-, starts, rfl⟩
    · exact Bool.noConfusion (h_off.symm.trans h_on)
    · have h_t :
          t.config = e₀.config ∧ t.clock.now = e₀.clock.now ∧ t.board.lag = e₀.board.lag := by
        cases h_list <;> exact ⟨rfl, rfl, rfl⟩
      obtain ⟨h_config, h_now, h_same⟩ := h_t
      rw [← h_config, ← h_now]
      exact ⟨0, .initial (h_same.trans h_lag) (h_config ▸ h_valid), rfl⟩
  | serve _ h ih =>
    -- only an event that is served can begin a period
    obtain ⟨m, h_e, h_last⟩ := ih
    exact (h_e.serve (h .debug)).exists_paced h_last
  | command _ h ih =>
    obtain ⟨m, h_e, h_last⟩ := ih
    obtain ⟨h_e', h_periods⟩ := h_e.command h
    exact ⟨m, h_e', (lastBegun?_of_eq h_periods).trans h_last⟩
  | start _ h ih =>
    -- a further start keeps the cadence of a running engine
    obtain ⟨m, h_e, h_last⟩ := ih
    obtain ⟨h_e', h_periods⟩ := h_e.start h
    exact ⟨m, h_e', (lastBegun?_of_eq h_periods).trans h_last⟩

/-! ### Coasting on time -/

/-- What happens to an engine that is given no command and no list and is not stopped, while every
event is served at once. -/
inductive PromptCoast (p : Profile) (e : Engine (Bench P)) : Engine (Bench P) → Prop
  | refl : PromptCoast p e e
  | serve {t t' : Engine (Bench P)} {limit : UInt64} {event : Bool} (h : PromptCoast p e t)
      (h_run : ∀ q, (serveNext limit.toNat).run q t = .ok event t') : PromptCoast p e t'
  | resume {t t' : Engine (Bench P)} {r : Except StartError Unit} (h : PromptCoast p e t)
      (h_run : (Engine.start none).run p t = .ok r t') : PromptCoast p e t'

theorem Paced.coast (h : Paced wraps origin m e) (h_coast : PromptCoast p e e') :
    ∃ k, Coasts p e k e' ∧ Paced wraps origin (m + k) e' := by
  induction h_coast with
  | refl => exact ⟨0, .refl, h⟩
  | serve _ h_run ih =>
    obtain ⟨k, h_coasts, h_t⟩ := ih
    exact h_t.serve_coasts h_coasts (h_run .debug) (h_run p)
  | resume _ h_run ih =>
    obtain ⟨k, h_coasts, h_t⟩ := ih
    exact ⟨k, h_coasts.resume h_run, (h_t.start h_run).1⟩

omit [FixedBank P] in
theorem PromptRun.events (h : PromptRun p e₀ older e) : Events p e₀ e := by
  induction h with
  | first h => exact .single (.start h)
  | @serve older t t' limit event _ h ih =>
    obtain ⟨clock, -, ⟨-, rfl⟩ | ⟨-, h_serve⟩⟩ := run_serveNext_eq_ok (h p)
    · exact ih.tail (.between (.board rfl))
    · have h_time : Event p t (t.withClock clock) := .between (.board rfl)
      exact (ih.tail h_time).tail (.between (.interrupt (.inl ⟨_, h_serve⟩)))
  | command _ h ih => exact ih.tail (.command h)
  | start _ h ih => exact ih.tail (.start h)

/-! ### The prediction -/

/-- **Arrivals on time.** While an engine coasts on time after a prompt run, a channel arrives as
many lengths of a period after the start of the last one as it has periods left. -/
theorem PromptRun.channel_of_coast {n T : Nat} {c : Channel} (h_lag : e₀.board.lag = 0)
    (h_off : e₀.started = false) (h : PromptRun p e₀ older e)
    (h_last : lastBegun? (e :: older) = some T) (h_coast : PromptCoast p e e')
    (h_c : e.channel? n = some c) :
    ∃ c', e'.channel? n = some c' ∧ c'.target = c.target ∧
      (c'.position = c'.target ↔
        T + rampPeriods c.distance c.speed * e.config.periodTicks ≤ e'.clock.now) := by
  obtain ⟨m, h_paced, h_start⟩ := paced_of_promptRun h_lag h_off h
  rw [h_last] at h_start
  -- some period has begun, and the last of them at `T`
  obtain ⟨j, rfl⟩ : ∃ j, m = j + 1 := by
    cases m with
    | zero => exact absurd h_start nofun
    | succ j => exact ⟨j, rfl⟩
  obtain rfl := Option.some.inj h_start
  obtain ⟨k, h_coasts, h_paced'⟩ := h_paced.coast h_coast
  obtain ⟨c', h_c', h_target, h_arrived⟩ := h_coasts.channel h_paced.started h_c
  refine ⟨c', h_c', h_target, h_arrived.trans ?_⟩
  have h_ticks : e.config.periodTicks = e₀.config.wrapsPerPeriod.toNat * ticksPerWrap :=
    congrArg (· * ticksPerWrap) h_paced.wraps_eq
  -- the arrival is the start of a period, and that one has begun exactly if enough of them have
  rw [h_ticks, ← periodStart_add, h_paced'.periodStart_le_iff]
  unfold Channel.periodsLeft
  omega

/-- **Ramp prediction.** A running engine that is given no command and no list and is not stopped
has each channel on target exactly when as many periods have begun as `rampPeriods` says, whatever
the board and however late its interrupts, and once one has begun, it says that a channel moves
until the period after the last arrival. Where arming takes no time and every event has been served
at once since the timer started, a channel arrives that number of period lengths after the start of
the last period. This is the time that `Config.rampDurationUs` gives, and no number on the way to it
leaves its width. -/
theorem ramp_prediction {β P : Type} [Board β] [FixedPins β] [PinBank P] [FixedBank P]
    {p : Profile} :
    (∀ {k : Nat} {e e' : Engine β}, e.started = true → Coasts p e k e' → 1 ≤ k →
      (∀ n c, e.channel? n = some c → ∃ c', e'.channel? n = some c' ∧ c'.target = c.target ∧
        (c'.position = c'.target ↔ rampPeriods c.distance c.speed ≤ k)) ∧
      (e'.moving = true ↔ k ≤ e.table.periodsLeft)) ∧
    ∀ {board : Bench P} {config : Config} {older : List (Engine (Bench P))}
      {e₀ e e' : Engine (Bench P)} {T : Nat},
      Events p { board, config } e₀ → e₀.board.lag = 0 → e₀.started = false →
      PromptRun p e₀ older e → lastBegun? (e :: older) = some T → PromptCoast p e e' →
      ∀ n c, e.channel? n = some c → ∃ arrival,
        (∃ c', e'.channel? n = some c' ∧ c'.target = c.target ∧
          (c'.position = c'.target ↔ arrival ≤ e'.clock.now)) ∧
        arrival = T + rampPeriods c.distance c.speed * e.config.periodTicks ∧
        (arrival - T) / ticksPerMicrosecond = e.config.rampDurationUs c.distance c.speed ∧
        c.distance ≤ maxTargetTicks ∧
        rampPeriods c.distance c.speed * e.config.periodTicks < Width.bits64.size := by
  refine ⟨fun h_on h h_k => ⟨fun n c h_c => h.channel h_on h_c, h.moving_iff h_on h_k⟩, ?_⟩
  intro board config older e₀ e e' T h_events h_lag h_off h h_last h_coast n c h_c
  have h_sound : e.table.Sound (Board.eligible e.board) :=
    (Events.panel_steps (h_events.trans h.events)).sound (.new _)
  have h_range := h_sound.inRange_of_get? h_c
  -- the arrival is in ticks from the start of the last period, so its time divides back
  refine ⟨_, h.channel_of_coast h_lag h_off h_last h_coast h_c, rfl, ?_, h_range.ramp_lt e.config⟩
  rw [Nat.add_sub_cancel_left]
  rfl

/-- The state after some events were served at once, with the number of the periods that began. -/
def coastOn? (limits : List UInt64) (s : Nat × Engine (Bench (Scope PinRecorder))) :
    Option (Nat × Engine (Bench (Scope PinRecorder))) :=
  limits.foldlM (fun s limit => (agreed? (serveNext limit.toNat) s.2).map fun r =>
    (s.1 + r.2.periodsSince s.2.periods, r.2)) s

theorem coasts_of_coastOn? {e t : Engine (Bench (Scope PinRecorder))} {k : Nat}
    {limits : List UInt64} {s : Nat × Engine (Bench (Scope PinRecorder))}
    (h : PromptCoast p e t ∧ Coasts p e k t) (h_on : coastOn? limits (k, t) = some s) :
    PromptCoast p e s.2 ∧ Coasts p e s.1 s.2 := by
  induction limits generalizing k t with
  | nil =>
    cases h_on
    exact h
  | cons limit limits ih =>
    obtain ⟨t', h_first, h_rest⟩ := Option.bind_eq_some_iff.1 h_on
    obtain ⟨⟨event, t'⟩, h_agreed, rfl⟩ := Option.map_eq_some_iff.1 h_first
    have h_run := run_of_agreed? h_agreed
    exact ih ⟨h.1.serve h_run, h.2.serve (h_run p)⟩ h_rest

/-- A run that sends a servo 1500 ticks on at 1000 ticks a period, right after its first period. -/
def rampRun :
    Option (List (Engine (Bench (Scope PinRecorder))) × Engine (Bench (Scope PinRecorder))) :=
  replayPrompt? .debug
    [.command (.targetTicks 0 36000), .serve 70000, .command (.speed 0 1000),
      .command (.targetTicks 0 37500)]
    ([], twoPins)

theorem isSome_rampRun : rampRun.isSome = true := by decide +kernel

/-- The end of the ramp, with the fall of two pulses on the way. -/
def rampEnd : Option (Nat × Engine (Bench (Scope PinRecorder))) :=
  coastOn? [110000, 140000, 170000, 200000] (0, (rampRun.get isSome_rampRun).2)

theorem isSome_rampEnd : rampEnd.isSome = true := by decide +kernel

theorem ramp_prediction_rampRun :
    ∃ e e' : Engine (Bench (Scope PinRecorder)), e'.clock.now = 196708 ∧
      (e'.moving = true ↔ 2 ≤ e.table.periodsLeft) ∧
      ∃ c, e.channel? 0 = some c ∧ e.config.rampDurationUs c.distance c.speed = 5461 ∧
        ∃ c', e'.channel? 0 = some c' ∧ c'.target = c.target ∧
          (c'.position = c'.target ↔ 196708 ≤ e'.clock.now) := by
  -- the channel has 1500 ticks to go, at 1000 ticks in a period
  have h_run := promptRun_of_replayPrompt? (.first run_start_twoPins)
    (Option.some_get isSome_rampRun).symm
  have h_on := coasts_of_coastOn? (p := .debug) ⟨.refl, .refl⟩ (Option.some_get isSome_rampEnd).symm
  have h_two : (rampEnd.get isSome_rampEnd).1 = 2 := by decide +kernel
  rw [h_two] at h_on
  have h_c : (rampRun.get isSome_rampRun).2.channel? 0 =
      some { pin := 2, target := 37500, position := 36000, speed := 1000 } := by decide +kernel
  obtain ⟨h_any, h_bench⟩ := ramp_prediction (β := Bench (Scope PinRecorder))
    (P := Scope PinRecorder) (p := .debug)
  have h_moving := (h_any (by decide +kernel) h_on.2 (by decide)).2
  have h_last : lastBegun? ((rampRun.get isSome_rampRun).2 :: (rampRun.get isSome_rampRun).1) =
      some 65636 := by decide +kernel
  obtain ⟨arrival, h_arrives, h_arrival, -⟩ := h_bench .refl rfl rfl h_run h_last h_on.1 0 _ h_c
  have h_ticks : arrival = 196708 := h_arrival.trans (by decide +kernel)
  rw [h_ticks] at h_arrives
  exact ⟨(rampRun.get isSome_rampRun).2, (rampEnd.get isSome_rampEnd).2, by decide +kernel,
    h_moving, _, h_c, by decide +kernel, h_arrives⟩

end Engine

end ServoPulse
