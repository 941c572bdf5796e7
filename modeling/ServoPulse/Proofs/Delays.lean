import ServoPulse.Proofs.BenchTracking
import ServoPulse.Simulation.Delay

/-!
# Delays are moments

Whatever happens during a simulated delay is a run of moments (`keeps_delayUs`): serving each
interrupt at once, serving none, and standing still. So a stop that waits by such delays is a
step of a run (`step_of_run_stopWith`).
-/

namespace ServoPulse

namespace Engine

variable {e e' : Engine (Bench PinRecorder)}

/-- From a time that fits, there are moments that lead to a time that fits. -/
def Onward (e e' : Engine (Bench PinRecorder)) : Prop :=
  e.clock.now < Clock.instants → Moments e e' ∧ e'.clock.now < Clock.instants

instance : IsPreorder (Engine (Bench PinRecorder)) Onward where
  refl _ h_now := ⟨.refl, h_now⟩
  trans e₁ e₂ e₃ h₁₂ h₂₃ h_now := by
    obtain ⟨h_first, h_mid⟩ := h₁₂ h_now
    obtain ⟨h_last, h_end⟩ := h₂₃ h_mid
    exact ⟨h_first.trans h_last, h_end⟩

/-- A jump of time up to a limit is a jump by some ticks. -/
theorem onward_of_run_advanceUntil {limit : Nat} {event : Bool} {clock : Clock}
    (h_limit : limit < Clock.instants)
    (h_run : (Clock.advanceUntil limit).run .debug e.clock = .ok event clock) :
    Onward e (e.withClock clock) := by
  intro h_now
  obtain ⟨h_fits, h_reach⟩ := Clock.run_advanceUntil_debug_iff.1 h_run
  -- a limit behind the clock is the same as one at the clock
  have h_sum : e.clock.now + (limit - e.clock.now) < Clock.instants := by omega
  have h_same : e.clock.reach (e.clock.now + (limit - e.clock.now)) = (event, clock) := by
    by_cases h_ahead : e.clock.now ≤ limit
    · rw [Nat.add_sub_of_le h_ahead, h_reach]
    · have h_behind := Nat.le_of_not_le h_ahead
      rw [Nat.sub_eq_zero_of_le h_behind, Nat.add_zero, Clock.reach_of_le (Nat.le_refl _),
        ← Clock.reach_of_le h_behind, h_reach]
  -- so the step is an advance by a number of ticks, which is a moment of the history
  have h_advance :
      (advance (limit - e.clock.now)).run .debug e = .ok event (e.withClock clock) := by
    refine Action.run_liftM_bind_eq_ok_iff.2 ⟨_, Checked.run_add_of_lt h_sum .debug, ?_⟩
    refine Action.run_zoom_eq_ok_iff.2 ⟨{ e.board with clock }, ?_, rfl⟩
    refine Action.run_zoom_eq_ok_iff.2 ⟨clock, ?_, rfl⟩
    exact Clock.run_advanceUntil_debug_iff.2 ⟨h_fits, h_same⟩
  obtain ⟨h_moment, h_now'⟩ := moment_of_run_advance h_now h_advance
  exact ⟨.single h_moment, h_now'⟩

theorem keeps_serveNext {limit : Nat} (h_limit : limit < Clock.instants) :
    Action.Keeps Onward .debug (serveNext (P := PinRecorder) limit) := by
  intro e event e' h_run
  obtain ⟨clock, h_advance, h_rest⟩ := run_serveNext_eq_ok h_run
  have h_first : Onward e (e.withClock clock) := onward_of_run_advanceUntil h_limit h_advance
  rcases h_rest with ⟨-, rfl⟩ | ⟨-, h_serve⟩
  · -- no event came before the limit
    exact h_first
  · -- an interrupt at the same instant is a moment of its own
    refine IsTrans.trans _ _ _ h_first fun h_now => ?_
    obtain ⟨h_moment, h_now'⟩ := moment_of_run_interrupt h_now h_serve
    exact ⟨.single h_moment, h_now'⟩

/-- Time passes without service by jumps from event to event. -/
theorem onward_of_run_passUntil {limit : Nat} {clock : Clock} (h_limit : limit < Clock.instants)
    (h_run : (Clock.passUntil limit).run .debug e.clock = .ok () clock) :
    Onward e (e.withClock clock) := by
  -- the relation on clocks is that of the engines that have them
  have h_keeps : Action.Keeps (fun c d => Onward (e.withClock c) (e.withClock d)) .debug
      (Clock.passUntil limit) := by
    have : IsPreorder Clock fun c d => Onward (e.withClock c) (e.withClock d) :=
      { refl := fun c => Std.Refl.refl (e.withClock c)
        trans := fun c d f h_cd h_df => IsTrans.trans _ _ _ h_cd h_df }
    -- induction on the loop, each round of it an advance
    refine Action.Keeps.repeatWhile ?_ _
    intro c event d h_advance
    exact onward_of_run_advanceUntil h_limit h_advance
  exact h_keeps h_run

/-- **Delays.** In the `debug` profile, whatever happens during a delay is a run of moments. -/
theorem keeps_delayTicks (delay : Delay) (ticks : Nat) :
    Action.Keeps Moments .debug (delayTicks (P := PinRecorder) delay ticks) := by
  intro e u e' h_run
  cases delay with
  | frozen =>
    -- no time passes
    obtain ⟨-, rfl⟩ := Action.run_pure_eq_ok_iff.1 h_run
    exact .refl
  | serving =>
    -- the interrupts of the wait are served one after the other
    obtain ⟨limit, h_limit, h_run⟩ := Action.run_liftM_bind_eq_ok_iff.1 h_run
    obtain ⟨h_lt, rfl⟩ := Checked.run_add_debug_iff.1 h_limit
    have h_now : e.clock.now < Clock.instants := Nat.lt_of_le_of_lt (Nat.le_add_right _ _) h_lt
    exact (Action.Keeps.repeatWhile (keeps_serveNext h_lt) _ h_run h_now).1
  | deaf =>
    -- the clock passes, and the flags that come up stay up
    obtain ⟨limit, h_limit, h_run⟩ := Action.run_liftM_bind_eq_ok_iff.1 h_run
    obtain ⟨h_lt, rfl⟩ := Checked.run_add_debug_iff.1 h_limit
    have h_now : e.clock.now < Clock.instants := Nat.lt_of_le_of_lt (Nat.le_add_right _ _) h_lt
    obtain ⟨b, h_board, rfl⟩ := Action.run_zoom_eq_ok_iff.1 h_run
    obtain ⟨clock, h_clock, rfl⟩ := Action.run_zoom_eq_ok_iff.1 h_board
    exact (onward_of_run_passUntil h_lt h_clock h_now).1

theorem keeps_delayUs (delay : Delay) (us : Nat) :
    Action.Keeps Moments .debug (delayUs (P := PinRecorder) delay us) :=
  Action.Keeps.forM fun _ _ => keeps_delayTicks delay _

/-- A stop that waits by a delay is a step of a run. -/
theorem step_of_run_stopWith {delay : Delay} {report : StopReport}
    (h : (stopWith delay).run .debug e = .ok report e') : Step .debug true e e' := by
  rw [stopWith, Action.run_get_bind] at h
  exact .stop (fun _ => keeps_delayUs delay _) h fun _ => rfl

end Engine

end ServoPulse
