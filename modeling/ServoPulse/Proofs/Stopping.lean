import ServoPulse.Proofs.PendingFalls

/-!
# What a stop leaves high

A stop drives the pins of the channels low and empties the queue (`isHigh_shutDown`). A pin
that a new list took out of the channels while its pulse was in flight is not among them:
it goes low only if its fall comes due during the wait. So a stop leaves high the pins that
are high when the wait is over and belong to no channel (`stop_high_iff`), and none when it
waits long enough. A stop that gives up waiting can leave one high for good
(`not_forall_stop_low`).
-/

namespace ServoPulse

namespace Engine

/-- A shutdown drives the pins of the channels low and leaves the others alone. -/
theorem isHigh_shutDown {P : Type} [PinBank P] [LawfulPinBank P] {p : Profile}
    {e e' : Engine (Bench P)} (h : Prepared e) (h_run : shutDown.run p e = .ok () e') (pin : Nat) :
    PinBank.isHigh e'.pins pin = true ↔
      PinBank.isHigh e.pins pin = true ∧ ∀ c ∈ e'.table.active, c.pin ≠ pin := by
  obtain ⟨pins, h_pins, rfl⟩ := run_shutDown_eq_ok h_run
  change PinBank.isHigh pins pin = true ↔ _ ∧ ∀ c ∈ e.table.active, c.pin ≠ pin
  rw [PinBank.driveAll_isHigh h.output h_pins pin]
  by_cases h_mem : pin ∈ e.table.active.map Channel.pin
  · -- a pin of a channel is driven low
    obtain ⟨c, hc, h_eq⟩ := List.mem_map.1 h_mem
    rw [if_pos h_mem]
    exact ⟨nofun, fun h_and => absurd h_eq (h_and.2 c hc)⟩
  · -- any other pin keeps its level
    rw [if_neg h_mem]
    refine ⟨fun h_high => ⟨h_high, fun c hc h_eq => h_mem ?_⟩, And.left⟩
    exact h_eq ▸ List.mem_map_of_mem hc

section Recorded

variable {p : Profile} {config : Config} {lag now : Nat} {e e' : Engine (Bench PinRecorder)}
  {wait : Nat → Action (Engine (Bench PinRecorder)) Unit} {report : StopReport}

/-- **What a stop leaves high.** A stop of a running engine, after any run, waits for some
moments and shuts the engine down. A pin is high afterwards exactly if it was high when the
wait was over and belongs to no channel, so all pins are low exactly if every pin still high
by then belongs to a channel. Where no earlier stop gave up waiting, those pins are the
pins of the pending falls, and all pins are low if the stop did not give up waiting either. -/
theorem stop_high_iff (h : Steps p true (freshRecorded config lag now) e)
    (h_on : e.started = true) (h_wait : ∀ k, Action.Keeps Moments p (wait k))
    (h_stop : (stop wait).run p e = .ok report e') :
    ∃ e₁, Moments e e₁ ∧ shutDown.run p e₁ = .ok () e' ∧ report.forced = e₁.pulseInFlight ∧
      (∀ pin, e'.pins.isHigh pin = true ↔
        e₁.pins.isHigh pin = true ∧ ∀ c ∈ e'.table.active, c.pin ≠ pin) ∧
      ((∀ pin, e'.pins.isHigh pin = false) ↔
        ∀ pin, e₁.pins.isHigh pin = true → ∃ c ∈ e'.table.active, c.pin = pin) ∧
      (Steps p false (freshRecorded config lag now) e →
        (∀ pin, e₁.pins.isHigh pin = true ↔ ∃ f ∈ e₁.queue.events, f.pin = pin) ∧
          (report.forced = false → ∀ pin, e'.pins.isHigh pin = false)) := by
  have h_initial := Prepared.initial config lag now ({} : PinRecorder)
  have h_prepared := (Prepared.stable true).steps h_initial h
  -- the engine was running, so the stop did not return at once
  rcases run_stop_eq_ok h_wait h_prepared.valid h_stop with
    ⟨h_off, -⟩ | ⟨-, e₁, h_moments, h_down, h_forced⟩
  · exact absurd (h_on.symm.trans h_off) nofun
  have h_ready := (Prepared.stable (p := p) true).moments h_prepared h_moments
  have h_high := isHigh_shutDown h_ready h_down
  refine ⟨e₁, h_moments, h_down, h_forced, h_high, ⟨fun h_low pin h_pin => ?_, fun h_all pin => ?_⟩,
    fun h_whole => ?_⟩
  · -- a pin of no channel would stay high
    by_contra h_none
    have h_stays := (h_high pin).2 ⟨h_pin, fun c hc h_eq => h_none ⟨c, hc, h_eq⟩⟩
    exact absurd (h_stays.symm.trans (h_low pin)) nofun
  · -- a pin that was high is the pin of a channel, and has been driven low
    refine Bool.eq_false_iff.2 fun h_pin => ?_
    obtain ⟨h_before, h_none⟩ := (h_high pin).1 h_pin
    obtain ⟨c, hc, h_eq⟩ := h_all pin h_before
    exact h_none c hc h_eq
  · -- with every earlier stop long enough, the high pins are those of the pending falls
    have h_tied := (orderly_of_steps (h_whole.trans h_moments.steps)).tied
    refine ⟨fun pin => (h_tied.high_iff pin).trans List.mem_map, fun h_waited pin => ?_⟩
    -- a stop that had to cut nothing found the queue empty
    have h_queue : e₁.queue.events = [] := by
      rw [h_waited] at h_forced
      simpa [pulseInFlight, FallQueue.isEmpty] using h_forced.symm
    refine Bool.eq_false_iff.2 fun h_pin => ?_
    exact absurd ((h_high pin).1 h_pin).1 (Bool.eq_false_iff.1 (h_tied.low h_queue pin))

end Recorded

/-- A run that takes pin 2 out of the channels while its pulse is in flight, with the default
configuration. -/
def orphanRun : Option (Engine (Bench PinRecorder)) :=
  replay? .debug
    [.start (some [2]), .command (.targetTicks 0 36000), .advance 65536, .interrupt,
      .start (some [3])]
    (freshRecorded {} 0 0)

theorem isSome_orphanRun : orphanRun.isSome = true := by decide +kernel

/-- A stop after that run, in which no time passes. -/
def orphanStop : Option (StopReport × Engine (Bench PinRecorder)) :=
  (stop fun _ => pure ()).result? .debug (orphanRun.get isSome_orphanRun)

theorem isSome_orphanStop : orphanStop.isSome = true := by decide +kernel

theorem run_orphanStop :
    (stop fun _ => pure ()).run .debug (orphanRun.get isSome_orphanRun) =
      .ok (orphanStop.get isSome_orphanStop).1 (orphanStop.get isSome_orphanStop).2 := by
  refine Action.run_eq_ok_of_result? ?_
  rw [Prod.eta, Option.some_get, orphanStop]

theorem stop_high_iff_orphanStop :
    ∃ e₁, Moments (orphanRun.get isSome_orphanRun) e₁ ∧
      (∀ pin, (orphanStop.get isSome_orphanStop).2.pins.isHigh pin = true ↔
        e₁.pins.isHigh pin = true ∧
          ∀ c ∈ (orphanStop.get isSome_orphanStop).2.table.active, c.pin ≠ pin) := by
  have h_run := (Option.some_get isSome_orphanRun).symm
  have h_on : (orphanRun.get isSome_orphanRun).started = true := by decide +kernel
  obtain ⟨e₁, h_moments, -, -, h_high, -⟩ := stop_high_iff (steps_of_replay? h_run true) h_on
    (fun _ => Action.Keeps.pure ()) run_orphanStop
  exact ⟨e₁, h_moments, h_high⟩

/-- A stop does not always leave every pin low: after `orphanStop` pin 2 is high. -/
theorem not_forall_stop_low :
    ¬ ∀ (e e' : Engine (Bench PinRecorder)) (wait : Nat → Action (Engine (Bench PinRecorder)) Unit)
      (report : StopReport), Steps .debug true (freshRecorded {} 0 0) e →
      e.started = true → (∀ k, Action.Keeps Moments .debug (wait k)) →
      (stop wait).run .debug e = .ok report e' → ∀ pin, e'.pins.isHigh pin = false := by
  intro h_all
  have h_run := (Option.some_get isSome_orphanRun).symm
  have h_on : (orphanRun.get isSome_orphanRun).started = true := by decide +kernel
  have h_low := h_all _ _ _ _ (steps_of_replay? h_run true) h_on (fun _ => Action.Keeps.pure ())
    run_orphanStop 2
  have h_high : (orphanStop.get isSome_orphanStop).2.pins.isHigh 2 = true := by decide +kernel
  exact absurd (h_high.symm.trans h_low) nofun

end Engine

end ServoPulse
