import ServoPulse.Proofs.PulseSchedule
import ServoPulse.Proofs.Serving

/-!
# Clean runs

An engine without lag in a clean run is on schedule whenever its timer runs, however often it was
stopped and started again: what it did before the last start is over, and since then it has made the
changes of the schedule (`OnSchedule`). A shutdown in such a run changes no level.

While an engine goes on serving every event it stays on time (`OnTime.goesOn`), and a delay that
serves every interrupt is nothing but that (`servedOn_delayUs`). So a stop that waits in this way
keeps a run clean unless it gives up (`CleanRun.exists_of_stop`).
-/

namespace ServoPulse

namespace Engine

section Runs

variable {P : Type} [PinBank P] {p : Profile} {e e' e₀ : Engine (Bench P)}
  {older older' : List (Engine (Bench P))}

/-! ### Serving on -/

/-- What happens to an engine from `e` on while every event is served at once; the states before the
last one are added to the `older` ones. -/
inductive GoesOn (older : List (Engine (Bench P))) (e : Engine (Bench P)) :
    List (Engine (Bench P)) → Engine (Bench P) → Prop
  | refl : GoesOn older e older e
  | next {older' : List (Engine (Bench P))} {e' e'' : Engine (Bench P)} {limit : UInt64}
      {event : Bool} (h : GoesOn older e older' e')
      (h_next : (serveNext limit.toNat).run .debug e' = .ok event e'') :
      GoesOn older e (e' :: older') e''

theorem GoesOn.trans {older'' : List (Engine (Bench P))} {e'' : Engine (Bench P)}
    (h : GoesOn older e older' e') (h' : GoesOn older' e' older'' e'') :
    GoesOn older e older'' e'' := by
  induction h' with
  | refl => exact h
  | next _ h_next ih => exact ih.next h_next

theorem CleanRun.goesOn (h : CleanRun p e₀ older e) (h_goes : GoesOn older e older' e') :
    CleanRun p e₀ older' e' := by
  induction h_goes with
  | refl => exact h
  | next _ h_next ih => exact .serve ih h_next

/-- Whatever states came before, `e'` comes after `e` while every event is served at once. -/
def ServedOn (e e' : Engine (Bench P)) : Prop := ∀ older, ∃ older', GoesOn older e older' e'

instance : IsPreorder (Engine (Bench P)) ServedOn where
  refl _ older := ⟨older, .refl⟩
  trans e₁ e₂ e₃ h₁₂ h₂₃ older := by
    obtain ⟨older₂, h_first⟩ := h₁₂ older
    obtain ⟨older₃, h_rest⟩ := h₂₃ older₂
    exact ⟨older₃, h_first.trans h_rest⟩

theorem servedOn_run (ticks : Nat) : Action.Keeps ServedOn .debug (run (P := P) ticks) := by
  intro e u e' h_run
  obtain ⟨limit, h_limit, h_run⟩ := Action.run_liftM_bind_eq_ok_iff.1 h_run
  obtain ⟨h_lt, rfl⟩ := Checked.run_add_debug_iff.1 h_limit
  -- one served event extends the chain by one link, whatever the chain was before
  have h_each : Action.Keeps ServedOn .debug (serveNext (P := P) (e.clock.now + ticks)) := by
    intro t event t' h_next older
    rw [← UInt64.toNat_ofNat_of_lt' h_lt] at h_next
    exact ⟨_, .next .refl h_next⟩
  exact h_each.repeatWhile _ h_run

/-- A delay that serves every interrupt. -/
theorem servedOn_delayUs (us : Nat) :
    Action.Keeps ServedOn .debug (delayUs (P := P) .serving us) :=
  Action.Keeps.forM fun _ _ => servedOn_run _

end Runs

variable {P : Type} [PinBank P] [LawfulPinBank P] {wraps origin n : Nat}
  {late : Nat → Nat → Nat} {older older' : List (Engine (Bench (Scope P)))}
  {e e' : Engine (Bench (Scope P))}

/-- An engine on time stays on time while every event is served at once. -/
theorem OnTime.goesOn (h : OnTime wraps origin n late (tableInForce (e :: older)) e)
    (h_goes : GoesOn older e older' e') :
    ∃ late', OnTime wraps origin n late' (tableInForce (e' :: older')) e' := by
  induction h_goes with
  | refl => exact ⟨late, h⟩
  | next _ h_next ih =>
    obtain ⟨late', h_time⟩ := ih
    exact h_time.serve h_next (renewed_tableInForce _ _)

/-! ### Shutting down -/

omit [PinBank P] [LawfulPinBank P] in
/-- With no pulse in flight no fall is pending. -/
theorem events_of_not_inFlight (h : e.pulseInFlight = false) : e.queue.events = [] := by
  simpa [pulseInFlight, FallQueue.isEmpty] using h

/-- Shutting down with no fall pending changes no level. -/
theorem edges_shutDown {p : Profile} (h : Tied e) (h_queue : e.queue.events = [])
    (h_run : shutDown.run p e = .ok () e') : e'.edges = e.edges := by
  obtain ⟨pins, h_pins, rfl⟩ := run_shutDown_eq_ok h_run
  -- with nothing queued every pin is low, so lowering them records no edge
  have h_none : (e.table.active.map Channel.pin).filter
      (fun pin => PinBank.isHigh e.pins pin != false) = [] := by
    refine List.filter_eq_nil_iff.2 fun pin _ => ?_
    rw [h.low h_queue pin]
    exact nofun
  change pins.edges = _
  rw [Scope.driveAll_edges h.prepared.output h.channel_nodup h_pins, h_none, List.map_nil,
    List.append_nil]

/-! ### On schedule since the last start -/

/-- A change that is stamped with the time `s` or an earlier one. -/
def StampedBy (s : Nat) (x : Edge) : Prop := ∃ t, x.time? = some t ∧ t ≤ s

theorem StampedBy.mono {s t : Nat} {x : Edge} (h : StampedBy s x) (h_le : s ≤ t) :
    StampedBy t x := by
  obtain ⟨u, h_u, h_by⟩ := h
  exact ⟨u, h_u, Nat.le_trans h_by h_le⟩

/-- An engine that is on time since its timer was last started, if it runs. -/
structure OnSchedule (older : List (Engine (Bench (Scope P)))) (e : Engine (Bench (Scope P))) :
    Prop where
  short : ∀ T, ∀ f ∈ (tableInForce (e :: older) T).step.falls, f.due ≤ maxTargetTicks
  stamped : ∀ x ∈ e.edges, StampedBy e.clock.now x
  onTime : e.started = true → ∃ n late,
    OnTime e.config.wrapsPerPeriod.toNat e.clock.origin n late (tableInForce (e :: older)) e ∧
      ∀ x ∈ e.edges.take n, StampedBy e.clock.origin x

namespace OnSchedule

theorem of_onTime (h : OnTime wraps origin n late (tableInForce (e :: older)) e)
    (h_before : ∀ x ∈ e.edges.take n, StampedBy origin x) : OnSchedule older e where
  short := h.timely.short
  stamped x hx := by
    rw [← List.take_append_drop n e.edges, List.mem_append] at hx
    -- an edge is one of the old ones or one of this run's, and those carry their own bound
    rcases hx with hx | hx
    · exact (h_before x hx).mono h.steady.origin_le
    · obtain ⟨t, h_t, h_now, -⟩ := h.timely.stamp hx
      exact ⟨t, h_t, h_now⟩
  onTime _ := by
    rw [h.steady.wraps_eq, h.steady.origin_eq]
    exact ⟨n, late, h, h_before⟩

/-- An engine that runs goes on by steps that keep it on time. -/
theorem go_on (h : OnSchedule older e) (h_on : e.started = true) (h_ext : Extends e e')
    (h_step : ∀ {n : Nat} {late : Nat → Nat → Nat},
      OnTime e.config.wrapsPerPeriod.toNat e.clock.origin n late (tableInForce (e :: older)) e →
        ∃ late', OnTime e.config.wrapsPerPeriod.toNat e.clock.origin n late'
          (tableInForce (e' :: e :: older)) e') :
    OnSchedule (e :: older) e' := by
  obtain ⟨n, late, h_time, h_before⟩ := h.onTime h_on
  obtain ⟨late', h_time'⟩ := h_step h_time
  -- what is recorded is added behind, so the old edges are the same
  refine .of_onTime h_time' fun x hx => h_before x ?_
  obtain ⟨more, h_more, -⟩ := h_ext.adds
  rwa [h_more, List.take_append_of_le_length h_time.timely.length_le] at hx

/-- An engine that does not run changes no level. -/
theorem stand_still (h : OnSchedule older e) (h_bounded : Bounded e') (h_off : e'.started = false)
    (h_now : e.clock.now ≤ e'.clock.now) (h_edges : e'.edges = e.edges) :
    OnSchedule (e :: older) e' where
  short := (renewed_tableInForce e' (e :: older)).short h_bounded h.short
  stamped x hx := (h.stamped x (h_edges ▸ hx)).mono h_now
  onTime h_on := Bool.noConfusion (h_off.symm.trans h_on)

variable {p : Profile}

theorem serve {limit : Nat} {event : Bool} (h : OnSchedule older e) (h_orderly : Orderly e)
    (h_bounded : Bounded e') (h_run : (serveNext limit).run .debug e = .ok event e') :
    OnSchedule (e :: older) e' := by
  have h_stable : Stable .debug false fun t => Orderly t ∧ Extends e t :=
    Orderly.stable.and (extends_stableUnder e)
  have h_ext := (h_stable.serveNext ⟨h_orderly, .of_eq (Nat.le_refl _) rfl⟩ h_run).2
  by_cases h_on : e.started = true
  · -- on: the event is on time; off: nothing moves
    exact h.go_on h_on h_ext fun h_time => h_time.serve h_run (renewed_tableInForce _ _)
  · -- the interrupt of a halted engine takes the flags and nothing else
    have h_off := Bool.eq_false_iff.2 h_on
    have h_halted := h_orderly.halted_iff.2 h_off
    obtain ⟨clock, -, ⟨-, rfl⟩ | ⟨-, h_serve⟩⟩ := run_serveNext_eq_ok h_run
    · exact h.stand_still h_bounded h_off h_ext.now_le rfl
    · rcases run_interrupt_eq_ok h_serve with ⟨-, rfl⟩ | ⟨h_phase, -⟩ | ⟨h_phase, -⟩
      · -- the flags are all that is taken
        exact h.stand_still h_bounded h_off h_ext.now_le rfl
      · exact absurd h_halted h_phase
      · exact absurd h_halted h_phase

theorem command {k : Command} (h : OnSchedule older e) (h_orderly : Orderly e)
    (h_bounded : Bounded e') (h_end : k.exec.EndsIn p e e') : OnSchedule (e :: older) e' := by
  have h_ext := h_orderly.extends (.single (.command h_end))
  by_cases h_on : e.started = true
  · -- a command of a running engine leaves edges and queue as they are
    exact h.go_on h_on h_ext fun h_time =>
      ⟨_, h_time.command h_end (renewed_tableInForce _ _)⟩
  · have h_off := Bool.eq_false_iff.2 h_on
    -- the call was refused, or it changed the table of an engine at rest
    rcases endsIn_exec h_end with rfl | ⟨moving, rfl⟩
    · exact h.stand_still h_bounded h_off h_ext.now_le rfl
    · exact h.stand_still h_bounded h_off h_ext.now_le rfl

theorem start {pins? : Option (List Nat)} {r : Except StartError Unit} (h : OnSchedule older e)
    (h_orderly : Orderly e) (h_orderly' : Orderly e') (h_bounded : Bounded e')
    (h_lag : e.board.lag ≤ maxLag) (h_run : (Engine.start pins?).run p e = .ok r e') :
    OnSchedule (e :: older) e' := by
  have h_ext := h_orderly.extends (.single (.start h_run))
  by_cases h_on : e.started = true
  · -- running already, the call is a no-op or changes the channels for the period to come
    exact h.go_on h_on h_ext fun h_time => ⟨_, h_time.start h_run (renewed_tableInForce _ _)⟩
  have h_off := Bool.eq_false_iff.2 h_on
  rcases run_start_eq_ok h_run with ⟨-, rfl⟩ | ⟨-, -, t, h_list, ⟨h_on', -⟩ | ⟨-, starts, rfl⟩⟩
  · -- a refused start changes nothing
    exact h.stand_still h_bounded h_off h_ext.now_le rfl
  · exact absurd h_on' h_on
  · -- the timer starts; the new list records nothing, so every old edge lies before the start
    have h_edges : t.edges = e.edges := edges_relist h_list
    have h_same : t.clock.now = e.clock.now ∧ t.board.lag = e.board.lag := by
      cases h_list <;> exact ⟨rfl, rfl⟩
    have h_time := OnTime.initial h_orderly' h_bounded (h_same.2 ▸ h_lag) h.short
      (renewed_tableInForce _ _)
    refine .of_onTime h_time fun x hx => ?_
    rw [h_same.1]
    exact h.stamped x (h_edges ▸ List.mem_of_mem_take hx)

theorem stop (h : OnSchedule older e) (h_orderly : Orderly e) (h_bounded : Bounded e')
    (h_flight : e.pulseInFlight = false) (h_run : shutDown.run p e = .ok () e') :
    OnSchedule (e :: older) e' := by
  have h_edges := edges_shutDown h_orderly.tied (events_of_not_inFlight h_flight) h_run
  obtain ⟨pins, -, rfl⟩ := run_shutDown_eq_ok h_run
  exact h.stand_still h_bounded rfl (Nat.le_refl _) h_edges

end OnSchedule

/-! ### Clean runs -/

section Recorded

variable {p : Profile} {config : Config} {now : Nat}
  {older : List (Engine (Bench (Scope PinRecorder)))} {e : Engine (Bench (Scope PinRecorder))}

theorem handy_of_cleanRun (h : CleanRun p (freshObserved config 0 now) older e) :
    Handy e ∧ e.config = config := by
  have h_stable : Stable p false fun e : Engine (Bench (Scope PinRecorder)) =>
      ((Orderly e ∧ Bounded e) ∧ Roomy e) ∧ e.config = config ∧ e.board.lag = 0 :=
    -- the four properties are kept by whatever a clean run does, so one stability covers it
    Handy.stable.and (setup_stableUnder config 0)
  have h_roomy : Roomy (freshObserved config 0 now) :=
    ⟨PinRecorder.hasRoom_new now, Nat.zero_le _⟩
  obtain ⟨⟨⟨h_orderly, h_bounded⟩, h_roomy⟩, h_config, h_lag⟩ := h_stable.cleanRun
    ⟨⟨⟨.observed config 0 now, .initial config 0 now _⟩, h_roomy⟩, rfl, rfl⟩ h
  exact ⟨⟨h_orderly, h_bounded, h_roomy, h_lag⟩, h_config⟩

/-- **Clean runs are on schedule.** Whatever is called in a run that serves every event at once and
is not cut short, the engine has been on time since its timer was last started, and every level
change so far carries a time that has passed. -/
theorem onSchedule_of_cleanRun (h : CleanRun p (freshObserved config 0 now) older e) :
    OnSchedule older e := by
  -- induction on the run, one case for each kind of step, all by the lemmas above
  induction h with
  | new =>
    have h_short := (renewed_tableInForce (freshObserved config 0 now) []).short
      (.initial config 0 now _) short_of_no_state
    -- nothing is recorded and the engine is off
    exact ⟨h_short, fun x hx => absurd hx List.not_mem_nil, fun h_on => Bool.noConfusion h_on⟩
  | serve h_run h ih =>
    have h_handy := (handy_of_cleanRun h_run).1
    have h_handy' := (handy_of_cleanRun (.serve h_run h)).1
    exact ih.serve h_handy.orderly h_handy'.bounded h
  | command h_run h ih =>
    have h_handy := (handy_of_cleanRun h_run).1
    have h_handy' := (handy_of_cleanRun (.command h_run h)).1
    exact ih.command h_handy.orderly h_handy'.bounded h
  | start h_run h ih =>
    have h_handy := (handy_of_cleanRun h_run).1
    have h_handy' := (handy_of_cleanRun (.start h_run h)).1
    -- the board of a clean run has no lag at all
    refine ih.start h_handy.orderly h_handy'.orderly h_handy'.bounded ?_ h
    rw [h_handy.lag_eq]
    exact Nat.zero_le _
  | stop h_run h_on h_flight h ih =>
    have h_handy := (handy_of_cleanRun h_run).1
    have h_handy' := (handy_of_cleanRun (.stop h_run h_on h_flight h)).1
    exact ih.stop h_handy.orderly h_handy'.bounded h_flight h

/-- **Stops.** A stop that serves every event while it waits keeps a run clean, unless it gives
up. -/
theorem CleanRun.exists_of_stop {report : StopReport} {e' : Engine (Bench (Scope PinRecorder))}
    (h : CleanRun .debug (freshObserved config 0 now) older e)
    (h_run : (stopWith .serving).run .debug e = .ok report e') (h_forced : report.forced = false) :
    ∃ older', CleanRun .debug (freshObserved config 0 now) older' e' := by
  -- the pins of a clean run can be driven, which the shutdown needs
  have h_ready := (handy_of_cleanRun h).1.orderly.tied.prepared
  rw [stopWith, Action.run_get_bind] at h_run
  rcases run_stop_eq_ok (fun _ => servedOn_delayUs _) h_ready.valid h_run with
    ⟨-, -, rfl⟩ | ⟨h_on, e₁, h_served, h_down, h_flight⟩
  · -- off already, the stop changes nothing
    exact ⟨older, h⟩
  -- the waits are links of the run, and the shutdown is its last step
  obtain ⟨older₁, h_goes⟩ := h_served older
  obtain ⟨n, late, h_time, -⟩ := (onSchedule_of_cleanRun h).onTime h_on
  obtain ⟨late₁, h_time₁⟩ := h_time.goesOn h_goes
  exact ⟨_, .stop (h.goesOn h_goes) h_time₁.steady.started (h_flight.symm.trans h_forced) h_down⟩

end Recorded

end Engine

end ServoPulse
