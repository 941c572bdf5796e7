import ServoPulse.Proofs.Replay
import ServoPulse.Proofs.TimerEvents

/-!
# Pulses on schedule

An engine whose interrupts are all served at once makes exactly the level changes of the schedule,
whatever is written and listed while a pulse is high. Without lag it makes each of them when it is
due (`pulse_schedule`); with a lag that fits between the latest fall and the end of the turn, every
rise comes when it is due and every fall less than the lag later (`pulse_schedule_late`).

Every step of such a run keeps the engine on time: serving the next event (`OnTime.serve`), and
every command and start (`OnTime.command`, `OnTime.start`).
-/

namespace ServoPulse

namespace Engine

variable {P : Type} [PinBank P] [LawfulPinBank P] {wraps origin n : Nat}
  {late : Nat → Nat → Nat} {inForce inForce' : Nat → ChannelTable}
  {e e' : Engine (Bench (Scope P))}

/-- Serving the next event keeps the level changes on schedule. -/
theorem OnTime.serve {limit : Nat} {event : Bool} (h : OnTime wraps origin n late inForce e)
    (h_run : (serveNext limit).run .debug e = .ok event e')
    (h_renewed : Renewed inForce inForce' e') :
    ∃ late', OnTime wraps origin n late' inForce' e' := by
  obtain ⟨clock, h_advance, h_rest⟩ := run_serveNext_eq_ok h_run
  obtain ⟨h_orderly, h_bounded⟩ := (Bounded.stable (p := .debug)).advance
    ⟨h.steady.orderly, h.steady.bounded⟩ h_advance
  obtain ⟨-, h_reach⟩ := Clock.run_advanceUntil_debug_iff.1 h_advance
  rcases h_rest with ⟨rfl, rfl⟩ | ⟨rfl, h_serve⟩
  · -- no event comes up to the limit
    have h_far : ¬e.clock.eventAt ≤ limit := by
      intro h_near
      rw [Clock.reach, if_pos ⟨h.steady.running, h_near⟩] at h_reach
      exact Bool.noConfusion (congrArg Prod.fst h_reach)
    rw [Clock.reach, if_neg fun h_and => h_far h_and.2] at h_reach
    obtain rfl : { e.clock with now := max e.clock.now limit } = clock :=
      congrArg Prod.snd h_reach
    have h_steady : Steady wraps origin
        (e.withClock { e.clock with now := max e.clock.now limit }) :=
      ⟨h_orderly, h_bounded, h.steady.started, h.steady.wraps_eq, h.steady.lag_le,
        h.steady.running, h.steady.origin_eq, h.steady.overflow_flag⟩
    refine ⟨late, h.quiet h_steady rfl rfl rfl rfl rfl (Nat.le_max_left _ _) ?_ h_renewed⟩
    exact Nat.max_lt.2 ⟨e.clock.lt_eventAt, Nat.lt_of_not_le h_far⟩
  · obtain ⟨h_orderly', h_bounded'⟩ := (Bounded.stable (p := .debug)).interrupt
      ⟨h_orderly, h_bounded⟩ h_serve
    -- the event is a compare match if a fall is pending, and the end of the turn otherwise
    have h_limit : e.clock.eventAt ≤ limit := by
      by_contra h_far
      rw [Clock.reach, if_neg fun h_and => h_far h_and.2] at h_reach
      exact Bool.noConfusion (congrArg Prod.fst h_reach)
    obtain rfl : (e.clock.reach limit).2 = clock := congrArg Prod.snd h_reach
    cases h_queue : e.queue.events with
    | nil => exact h.overflow_event h_queue h_limit h_orderly' h_bounded' h_serve h_renewed
    | cons f rest => exact h.compare_event h_queue h_limit h_orderly' h_bounded' h_serve h_renewed

/-- A change of the table, or of nothing at all, does not change the schedule up to now. -/
theorem OnTime.write (h : OnTime wraps origin n late inForce e) (h_orderly : Orderly e')
    (h_bounded : Bounded e') (h_board : e'.clock = e.clock ∧ e'.board.lag = e.board.lag)
    (h_setup : e'.started = e.started ∧ e'.config = e.config) (h_wrap : e'.wrap = e.wrap)
    (h_queue : e'.queue = e.queue) (h_edges : e'.edges = e.edges)
    (h_renewed : Renewed inForce inForce' e') :
    OnTime wraps origin n late inForce' e' := by
  obtain ⟨h_clock, h_lag⟩ := h_board
  -- steadiness looks at nothing that was written
  have h_steady : Steady wraps origin e' := by
    refine ⟨h_orderly, h_bounded, h_setup.1.trans h.steady.started, ?_, h_lag ▸ h.steady.lag_le,
      ?_, ?_, ?_⟩
    · rw [h_setup.2]
      exact h.steady.wraps_eq
    · rw [h_clock]
      exact h.steady.running
    · rw [h_clock]
      exact h.steady.origin_eq
    · rw [h_clock]
      exact h.steady.overflow_flag
  have h_now : e'.clock.now = e.clock.now := congrArg Clock.now h_clock
  -- no time has passed, so the next event is still ahead
  have h_before : e'.clock.now < e.clock.eventAt := by
    rw [h_now]
    exact e.clock.lt_eventAt
  exact h.quiet h_steady h_wrap h_queue h_edges h_lag (congrArg Clock.compare h_clock)
    (Nat.le_of_eq h_now.symm) h_before h_renewed

/-- A command keeps an engine on time. -/
theorem OnTime.command {p : Profile} {k : Command} (h : OnTime wraps origin n late inForce e)
    (h_end : k.exec.EndsIn p e e') (h_renewed : Renewed inForce inForce' e') :
    OnTime wraps origin n late inForce' e' := by
  obtain ⟨h_orderly, h_bounded⟩ :=
    Bounded.stable.step ⟨h.steady.orderly, h.steady.bounded⟩ (.command h_end)
  rcases endsIn_exec h_end with rfl | ⟨moving, rfl⟩
  · exact h.write h_orderly h_bounded ⟨rfl, rfl⟩ ⟨rfl, rfl⟩ rfl rfl rfl h_renewed
  · exact h.write h_orderly h_bounded ⟨rfl, rfl⟩ ⟨rfl, rfl⟩ rfl rfl rfl h_renewed

/-- A call of `start` keeps an engine on time that has been started: at most it lists other
channels. -/
theorem OnTime.start {p : Profile} {pins? : Option (List Nat)} {r : Except StartError Unit}
    (h : OnTime wraps origin n late inForce e) (h_run : (start pins?).run p e = .ok r e')
    (h_renewed : Renewed inForce inForce' e') :
    OnTime wraps origin n late inForce' e' := by
  obtain ⟨h_orderly, h_bounded⟩ :=
    Bounded.stable.step ⟨h.steady.orderly, h.steady.bounded⟩ (.start h_run)
  rcases run_start_eq_ok h_run with ⟨-, rfl⟩ | ⟨-, -, t, h_list, ⟨-, rfl⟩ | ⟨h_off, -⟩⟩
  · -- a refused start
    exact h.write h_orderly h_bounded ⟨rfl, rfl⟩ ⟨rfl, rfl⟩ rfl rfl rfl h_renewed
  · -- of an engine that runs, a start replaces the table or sets the flag of motion
    have h_edges := edges_relist h_list
    cases h_list with
    | resume moving =>
      exact h.write h_orderly h_bounded ⟨rfl, rfl⟩ ⟨rfl, rfl⟩ rfl rfl h_edges h_renewed
    | list =>
      exact h.write h_orderly h_bounded ⟨rfl, rfl⟩ ⟨rfl, rfl⟩ rfl rfl h_edges h_renewed
  · -- an engine that runs is not launched again
    exact Bool.noConfusion (h.steady.started.symm.trans h_off)

/-- An engine that was just launched is on time: nothing is due before the first overflow. -/
theorem OnTime.initial {starts : Nat} (h_orderly : Orderly (e.launched starts))
    (h_bounded : Bounded (e.launched starts)) (h_lag : e.board.lag ≤ maxLag)
    (h_old : ∀ T, ∀ f ∈ (inForce T).step.falls, f.due ≤ maxTargetTicks)
    (h_renewed : Renewed inForce inForce' (e.launched starts)) :
    OnTime e.config.wrapsPerPeriod.toNat e.clock.now e.edges.length (fun _ _ => 0) inForce'
      (e.launched starts) := by
  have h_steady : Steady e.config.wrapsPerPeriod.toNat e.clock.now (e.launched starts) :=
    ⟨h_orderly, h_bounded, rfl, rfl, h_lag, rfl, rfl, rfl⟩
  -- the edges recorded before are not counted
  have h_none : (e.launched starts).edges.drop e.edges.length = [] := List.drop_length
  refine ⟨h_steady, ?_, rfl, h_renewed.new,
    { le := Nat.le_refl _
      sorted := .nil
      short := h_renewed.short h_bounded h_old
      pending_iff := fun f => ?_
      late_le := fun k servo => Nat.zero_le _
      late_by := fun k f _ h_by => h_by
      length_le := Nat.le_refl _
      edges_iff := fun x => ?_
      edges_nodup := h_none ▸ .nil
      edges_order := h_none ▸ .nil }⟩
  · -- the engine starts in the last turn of a period
    change e.config.wrapsPerPeriod.toNat - 1 = ((e.clock.now - e.clock.now) / ticksPerWrap + _) % _
    rw [Nat.sub_self, Nat.zero_div, Nat.zero_add,
      Nat.mod_eq_of_lt (Nat.sub_lt h_steady.wraps_pos Nat.one_pos)]
  · -- nothing is pending, and no period has begun
    refine ⟨fun hf => absurd hf List.not_mem_nil, ?_⟩
    rintro ⟨k, -, h_le, -⟩
    exact absurd h_le (Nat.not_le_of_lt lt_periodStart)
  · -- no edge is new, and none was to be made
    rw [h_none]
    refine ⟨fun hx => absurd hx List.not_mem_nil, ?_⟩
    rintro ⟨k, f, -, ⟨-, h_le⟩ | ⟨-, h_le⟩⟩
    · exact absurd h_le (Nat.not_le_of_lt lt_periodStart)
    · exact absurd (Nat.le_trans (Nat.le_add_right _ _) h_le) (Nat.not_le_of_lt lt_periodStart)

/-! ### Prompt runs -/

/-- The table in force at a time: that of the last state of a run before the time, where the
states stand from the last to the first. -/
def tableInForce (states : List (Engine (Bench P))) (T : Nat) : ChannelTable :=
  ((states.find? fun e => e.clock.now < T).map Engine.table).getD {}

omit [PinBank P] [LawfulPinBank P] in
/-- A new state of a run is in force from its own time on. -/
theorem renewed_tableInForce (e : Engine (Bench P)) (older : List (Engine (Bench P))) :
    Renewed (tableInForce older) (tableInForce (e :: older)) e where
  old T hT := by
    rw [tableInForce, List.find?_cons_of_neg (by simpa using hT), tableInForce]
  new T hT := by
    rw [tableInForce, List.find?_cons_of_pos (by simpa using hT)]
    rfl

omit [PinBank P] [LawfulPinBank P] in
/-- Before the first state no table is in force. -/
theorem short_of_no_state (T : Nat) :
    ∀ f ∈ (tableInForce ([] : List (Engine (Bench P))) T).step.falls, f.due ≤ maxTargetTicks :=
  fun _ hf => absurd hf List.not_mem_nil

omit [LawfulPinBank P] in
/-- The configuration belongs to the engine and the lag to the bench. -/
theorem setup_stableUnder {p : Profile} {cuts : Bool} {I : Engine (Bench P) → Prop}
    (config : Config) (lag : Nat) :
    StableUnder p cuts I fun e => e.config = config ∧ e.board.lag = lag where
  advance _ h _ := h
  interrupt _ h h_run :=
    (ServeStable.of_setup (Q := fun c l _ _ => c = config ∧ l = lag) id).interrupt h h_run
  relist _ h h_list := by
    cases h_list <;> exact h
  launch _ h _ := h
  command _ h := h
  shutDown _ h _ h_run := by
    obtain ⟨pins, -, rfl⟩ := run_shutDown_eq_ok h_run
    exact h

section Recorded

variable {p : Profile} {config : Config} {lag now : Nat}
  {older : List (Engine (Bench (Scope PinRecorder)))} {e : Engine (Bench (Scope PinRecorder))}

theorem Orderly.observed (config : Config) (lag now : Nat) :
    Orderly (freshObserved config lag now) :=
  .initial PinRecorder.isHigh_new rfl config lag now

theorem onTime_of_promptRun (h_lag : lag ≤ maxLag)
    (h : PromptRun p (freshObserved config lag now) older e) :
    ∃ late, OnTime config.wrapsPerPeriod.toNat now 0 late (tableInForce (e :: older)) e := by
  -- induction on the run, which begins with a start that is accepted
  induction h with
  | @first pins? e h =>
    obtain ⟨h_orderly, h_bounded⟩ := Bounded.stable.step
      ⟨.observed config lag now, .initial config lag now _⟩ (.start h)
    rcases run_start_eq_ok h with ⟨⟨error, h_error⟩, -⟩ | ⟨-, -, t, h_list, h_rest⟩
    · exact absurd h_error nofun
    rcases h_rest with ⟨h_on, -⟩ | ⟨-, starts, rfl⟩
    · -- a new engine is not started
      exact Bool.noConfusion h_on
    -- a new engine has recorded no edge
    have h_edges : t.edges = [] := edges_relist h_list
    have h_renewed := renewed_tableInForce (t.launched starts) []
    have h_t : t.config = config ∧ t.clock.now = now ∧ t.board.lag = lag := by
      cases h_list <;> exact ⟨rfl, rfl, rfl⟩
    obtain ⟨rfl, rfl, rfl⟩ := h_t
    have h_time := OnTime.initial h_orderly h_bounded h_lag short_of_no_state h_renewed
    rw [h_edges] at h_time
    exact ⟨_, h_time⟩
  | serve h_run h ih =>
    obtain ⟨late, h_time⟩ := ih
    exact h_time.serve (h .debug) (renewed_tableInForce _ _)
  | command h_run h ih =>
    obtain ⟨late, h_time⟩ := ih
    exact ⟨late, h_time.command h (renewed_tableInForce _ _)⟩
  | start h_run h ih =>
    obtain ⟨late, h_time⟩ := ih
    exact ⟨late, h_time.start h (renewed_tableInForce _ _)⟩

/-- The level changes of a prompt run, with the falls as late as they are. -/
theorem schedule_of_promptRun (h_lag : lag ≤ maxLag)
    (h : PromptRun p (freshObserved config lag now) older e) :
    ∃ late : Nat → Nat → Nat, (∀ k servo, late k servo ≤ lag - 1) ∧
      (∀ x, x ∈ e.edges ↔ Made config.wrapsPerPeriod.toNat now late (tableInForce (e :: older))
        e.clock.now e.clock.now x) ∧ e.edges.Nodup ∧ e.edges.Pairwise Edge.NotAfter := by
  obtain ⟨late, h_time⟩ := onTime_of_promptRun h_lag h
  have h_timely := h_time.timely
  refine ⟨late, ?_, h_timely.edges_iff, h_timely.edges_nodup, h_timely.edges_order⟩
  -- the lag of the board is the one that the run began with
  have h_stable : Stable p false fun e : Engine (Bench (Scope PinRecorder)) =>
      Orderly e ∧ e.config = config ∧ e.board.lag = lag :=
    Orderly.stable.and (setup_stableUnder config lag)
  have h_late := h_timely.late_le
  rwa [(h_stable.cleanRun ⟨.observed config lag now, rfl, rfl⟩ h.clean).2.2] at h_late

end Recorded

/-! ### Replaying a prompt run -/

/-- A step of a prompt run, written down. -/
inductive PromptOp where
  | serve (limit : UInt64)
  | command (k : Command)
  | start (pins? : Option (List Nat))

/-- The state after a step of a prompt run, if it returns. -/
def PromptOp.next? (p : Profile) (e : Engine (Bench (Scope PinRecorder))) :
    PromptOp → Option (Engine (Bench (Scope PinRecorder)))
  | serve limit => (agreed? (serveNext limit.toNat) e).map Prod.snd
  | command k => (k.exec.result? p e).map Prod.snd
  | start pins? => ((Engine.start pins?).result? p e).map Prod.snd

/-- The states of a prompt run, from the last to the first, if its steps return. -/
def replayPrompt? (p : Profile) (ops : List PromptOp)
    (states : List (Engine (Bench (Scope PinRecorder))) × Engine (Bench (Scope PinRecorder))) :
    Option (List (Engine (Bench (Scope PinRecorder))) × Engine (Bench (Scope PinRecorder))) :=
  ops.foldlM (fun s op => (op.next? p s.2).map fun e => (s.2 :: s.1, e)) states

theorem promptRun_of_replayPrompt? {p : Profile} {e₀ : Engine (Bench (Scope PinRecorder))}
    {ops : List PromptOp}
    {s s' : List (Engine (Bench (Scope PinRecorder))) × Engine (Bench (Scope PinRecorder))}
    (h : PromptRun p e₀ s.1 s.2) (h_replay : replayPrompt? p ops s = some s') :
    PromptRun p e₀ s'.1 s'.2 := by
  -- induction on the operations written down
  induction ops generalizing s with
  | nil =>
    cases h_replay
    exact h
  | cons op ops ih =>
    obtain ⟨t, h_first, h_rest⟩ := Option.bind_eq_some_iff.1 h_replay
    obtain ⟨e, h_next, rfl⟩ := Option.map_eq_some_iff.1 h_first
    refine ih ?_ h_rest
    cases op with
    | serve limit =>
      obtain ⟨⟨event, t⟩, h_result, rfl⟩ := Option.map_eq_some_iff.1 h_next
      exact .serve h (run_of_agreed? h_result)
    | command k =>
      obtain ⟨⟨⟨⟩, t⟩, h_result, rfl⟩ := Option.map_eq_some_iff.1 h_next
      exact .command h (.inl ⟨⟨⟩, Action.run_eq_ok_of_result? h_result⟩)
    | start pins? =>
      obtain ⟨⟨r, t⟩, h_result, rfl⟩ := Option.map_eq_some_iff.1 h_next
      exact .start h (Action.run_eq_ok_of_result? h_result)

/-! ### The schedule -/

/-- **Pulses on schedule.** In a run without lag that serves every event at once, the level
changes up to now are the scheduled ones: a channel whose position is `w > 0` after the step
of period `k` rises when that period starts and falls `w` ticks later, with the table that is
in force when the period starts, and no pin changes its level at any other time. Each change
happens once, and they stand in order of time. -/
theorem pulse_schedule {p : Profile} {config : Config} {now : Nat}
    {older : List (Engine (Bench (Scope PinRecorder)))} {e : Engine (Bench (Scope PinRecorder))}
    (h : PromptRun p (freshObserved config 0 now) older e) :
    (∀ x, x ∈ e.edges ↔ Scheduled config.wrapsPerPeriod.toNat now (tableInForce (e :: older))
      e.clock.now x) ∧ e.edges.Nodup ∧ e.edges.Pairwise Edge.NotAfter := by
  obtain ⟨late, h_late, h_edges, h_order⟩ := schedule_of_promptRun (Nat.zero_le _) h
  refine ⟨fun x => (h_edges x).trans (scheduled_iff_made fun k servo => ?_).symm, h_order⟩
  exact Nat.eq_zero_of_le_zero (h_late k servo)

/-- An engine on pins 2 and 3, just started. -/
def twoPins : Engine (Bench (Scope PinRecorder)) :=
  ((freshObserved { wrapsPerPeriod := 1 } 0 100).relisted [2, 3]).launched 1

theorem run_start_twoPins : (start (some [2, 3])).run .debug
    (freshObserved { wrapsPerPeriod := 1 } 0 100) = .ok (.ok ()) twoPins := rfl

/-- A run that moves the engine to pin 4 in the middle of two pulses of the same width. -/
def movedRun :
    Option (List (Engine (Bench (Scope PinRecorder))) × Engine (Bench (Scope PinRecorder))) :=
  replayPrompt? .debug
    [.command (.targetTicks 0 36000), .command (.targetTicks 1 36000), .serve 70000,
      .start (some [4]), .command (.targetTicks 0 24000), .serve 150000, .serve 150000]
    ([], twoPins)

theorem isSome_movedRun : movedRun.isSome = true := by decide +kernel

theorem pulse_schedule_movedRun :
    ∃ older e, PromptRun .debug (freshObserved { wrapsPerPeriod := 1 } 0 100) older e ∧
      e.edges = [.rise 65636 2, .rise 65636 3, .fall 101636 2, .fall 101636 3, .rise 131172 4] ∧
      ∀ x, x ∈ e.edges ↔ Scheduled 1 100 (tableInForce (e :: older)) e.clock.now x := by
  have h := promptRun_of_replayPrompt? (.first run_start_twoPins)
    (Option.some_get isSome_movedRun).symm
  refine ⟨_, _, h, ?_, (pulse_schedule h).1⟩
  decide +kernel

/-- **Slow arming.** Where arming the compare channel takes `lag` ticks, and these fit between the
latest fall and the end of a turn, a run that serves every event at once still has every rise of the
schedule right when it is due, and every fall less than `lag` ticks late, however close to each
other the falls are. Each of them happens once, no other change does, and they stand in order of
time. -/
theorem pulse_schedule_late {p : Profile} {config : Config} {lag now : Nat}
    {older : List (Engine (Bench (Scope PinRecorder)))} {e : Engine (Bench (Scope PinRecorder))}
    (h_pos : 0 < lag) (h_lag : lag ≤ 5536)
    (h : PromptRun p (freshObserved config lag now) older e) :
    ∃ late : Nat → Nat → Nat, (∀ k servo, late k servo < lag) ∧
      (∀ x, x ∈ e.edges ↔ ScheduledLate config.wrapsPerPeriod.toNat now late
        (tableInForce (e :: older)) e.clock.now x) ∧
      e.edges.Nodup ∧ e.edges.Pairwise Edge.NotAfter := by
  obtain ⟨late, h_late, h_edges, h_order⟩ := schedule_of_promptRun h_lag h
  refine ⟨late, fun k servo => ?_, fun x => (h_edges x).trans scheduledLate_iff_made.symm, h_order⟩
  exact Nat.lt_of_le_sub_one h_pos (h_late k servo)

/-- An engine on pins 2 and 3, just started, that takes 1000 ticks to arm its compare channel. -/
def twoSlowPins : Engine (Bench (Scope PinRecorder)) :=
  ((freshObserved { wrapsPerPeriod := 1 } 1000 100).relisted [2, 3]).launched 1

theorem run_start_twoSlowPins : (start (some [2, 3])).run .debug
    (freshObserved { wrapsPerPeriod := 1 } 1000 100) = .ok (.ok ()) twoSlowPins := rfl

/-- A run with two falls closer together than the time it takes to arm the compare channel. -/
def closeFallsRun :
    Option (List (Engine (Bench (Scope PinRecorder))) × Engine (Bench (Scope PinRecorder))) :=
  replayPrompt? .debug
    [.command (.targetTicks 0 36000), .command (.targetTicks 1 36500), .serve 70000,
      .serve 150000]
    ([], twoSlowPins)

theorem isSome_closeFallsRun : closeFallsRun.isSome = true := by decide +kernel

theorem pulse_schedule_late_closeFallsRun :
    ∃ older e, PromptRun .debug (freshObserved { wrapsPerPeriod := 1 } 1000 100) older e ∧
      e.edges = [.rise 65636 2, .rise 65636 3, .fall 101636 2, .fall 102636 3] ∧
      ∃ late : Nat → Nat → Nat, (∀ k servo, late k servo < 1000) ∧
        ∀ x, x ∈ e.edges ↔ ScheduledLate 1 100 late (tableInForce (e :: older)) e.clock.now x := by
  have h := promptRun_of_replayPrompt? (.first run_start_twoSlowPins)
    (Option.some_get isSome_closeFallsRun).symm
  obtain ⟨late, h_late, h_edges, -⟩ := pulse_schedule_late (by decide) (by decide) h
  refine ⟨_, _, h, ?_, late, h_late, h_edges⟩
  decide +kernel

end Engine

end ServoPulse
