import Mathlib.Algebra.GroupWithZero.Nat
import ServoPulse.Proofs.NoEarlyFall
import ServoPulse.Proofs.Returning
import ServoPulse.Simulation.Delay

/-!
# Serving every interrupt

Running an engine for some ticks serves every event on the way. Where arming the compare channel
takes no time, neither does an interrupt (`now_of_run_interrupt`), so the run ends right on time: it
returns, and the clock shows the ticks that were asked for (`Handy.returns_run`, `now_of_run`). The
calls that make up a delay ask for all of its ticks (`sum_delayCalls`), and so a delay does the same
(`Handy.returns_delayUs`).
-/

namespace ServoPulse

/-- The calls of a delay ask for all of its ticks. -/
theorem sum_delayCalls (us : Nat) :
    ((delayCalls us).map ticksOfNs).sum = ticksPerMicrosecond * us := by
  have h_ticks (n : Nat) : ticksOfNs (n * 1000) = ticksPerMicrosecond * n := by
    rw [ticksOfNs, Nat.mul_right_comm, Nat.mul_div_cancel _ (by decide), Nat.mul_comm]
  have h_full := Nat.div_mul_le_self (us - 1) maxDelayUs
  rw [delayCalls, List.map_append, List.map_replicate, List.sum_append, List.sum_replicate_nat,
    List.map_singleton, List.sum_singleton, h_ticks, h_ticks]
  generalize (us - 1) / maxDelayUs = full at *
  simp only [ticksPerMicrosecond, maxDelayUs] at *
  omega

namespace Engine

variable {P : Type} [PinBank P] [LawfulPinBank P] {p : Profile} {e e' : Engine (Bench P)}

/-! ### Interrupts that take no time -/

omit [LawfulPinBank P] in
theorem serveStable_now (t : Nat) :
    ServeStable fun e : Engine (Bench P) => e.board.lag = 0 ∧ e.clock.now = t where
  lower h _ _ _ h_run := by
    obtain ⟨pins, -, rfl⟩ := run_lower_eq_ok_iff.1 h_run
    exact h
  arm {e f rest limit clock} h _ _ _ h_limit h_pass := by
    obtain ⟨-, rfl⟩ := Checked.run_add_debug_iff.1 h_limit
    rw [h.1] at h_pass
    obtain rfl := Clock.passUntil_eq_of_le h_pass (Nat.le_refl _)
    exact h
  setClock h h_now _ := ⟨h.1, h_now.trans h.2⟩
  setWrap h := h
  setPhase h := h
  beginPeriod h h_run := by
    have h_begun := periodBegun_of_run h_run
    refine ⟨h_begun.lag_eq.trans h.1, ?_⟩
    rw [h_begun.clock_eq]
    exact h.2

omit [LawfulPinBank P] in
/-- Without lag, interrupts take no time. -/
theorem now_of_run_interrupt (h_lag : e.board.lag = 0)
    (h_run : interrupt.run .debug e = .ok () e') :
    e'.board.lag = 0 ∧ e'.clock.now = e.clock.now :=
  (serveStable_now e.clock.now).interrupt ⟨h_lag, rfl⟩ h_run

omit [LawfulPinBank P] in
/-- Serving the next event moves the time forward, to the limit at most, and up to it if no event
comes before. -/
theorem now_of_run_serveNext {limit : Nat} {event : Bool} (h_lag : e.board.lag = 0)
    (h_run : (serveNext limit).run .debug e = .ok event e') :
    e'.board.lag = 0 ∧ e'.clock.now ≤ max e.clock.now limit ∧
      (event = true → e.clock.now < e'.clock.now) ∧
      (event = false → e'.clock.now = max e.clock.now limit) := by
  obtain ⟨clock, h_advance, h_rest⟩ := run_serveNext_eq_ok h_run
  obtain ⟨-, h_reach⟩ := Clock.run_advanceUntil_debug_iff.1 h_advance
  have h_now := e.clock.reach_now_le limit
  rw [h_reach] at h_now
  rcases h_rest with ⟨rfl, rfl⟩ | ⟨rfl, h_serve⟩
  · -- without an event, time stands at the limit
    refine ⟨h_lag, h_now.2, fun h_event => Bool.noConfusion h_event, fun _ => ?_⟩
    rw [Clock.reach] at h_reach
    split at h_reach
    · exact Bool.noConfusion (congrArg Prod.fst h_reach)
    · exact (congrArg (Clock.now ∘ Prod.snd) h_reach).symm
  · -- the event was ahead, and its interrupt takes no time
    obtain ⟨h_lag', h_same⟩ := now_of_run_interrupt (e := e.withClock clock) h_lag h_serve
    refine ⟨h_lag', h_same ▸ h_now.2, fun _ => ?_, fun h_none => Bool.noConfusion h_none⟩
    rw [h_same, Clock.reach] at *
    split at h_reach
    · obtain rfl := congrArg Prod.snd h_reach
      exact e.clock.lt_eventAt
    · exact Bool.noConfusion (congrArg Prod.fst h_reach)

omit [LawfulPinBank P] in
theorem now_le_of_run_serveNext {limit : Nat} {event : Bool} (h_lag : e.board.lag = 0)
    (h_run : (serveNext limit).run .debug e = .ok event e') : e.clock.now ≤ e'.clock.now := by
  obtain ⟨-, -, h_event, h_none⟩ := now_of_run_serveNext h_lag h_run
  cases event with
  | true => exact Nat.le_of_lt (h_event rfl)
  | false => exact h_none rfl ▸ Nat.le_max_left _ _

omit [LawfulPinBank P] in
/-- Events are served one after the other up to the limit, as long as there are enough tries: each
goes forward. -/
theorem now_of_run_repeatWhile {limit fuel : Nat} (h_lag : e.board.lag = 0)
    (h_fuel : limit < e.clock.now + fuel)
    (h_run : (Action.repeatWhile (serveNext limit) fuel).run .debug e = .ok () e') :
    e'.clock.now = max e.clock.now limit := by
  induction fuel generalizing e with
  | zero =>
    -- no try is needed, as time is past the limit
    obtain ⟨-, rfl⟩ := Action.run_pure_eq_ok_iff.1 h_run
    exact (Nat.max_eq_left (Nat.le_of_lt h_fuel)).symm
  | succ fuel ih =>
    obtain ⟨event, t, h_first, h_rest⟩ := Action.run_bind_eq_ok_iff.1 h_run
    obtain ⟨h_lag', h_by, h_event, h_none⟩ := now_of_run_serveNext h_lag h_first
    cases event with
    | true =>
      -- each event is ahead of the one before, so the tries do not run out
      have h_from := h_event rfl
      rw [ih h_lag' (by omega) h_rest]
      omega
    | false =>
      obtain ⟨-, rfl⟩ := Action.run_pure_eq_ok_iff.1 h_rest
      exact h_none rfl

omit [LawfulPinBank P] in
/-- A run takes the ticks that it is given. -/
theorem now_of_run {ticks : Nat} (h_lag : e.board.lag = 0)
    (h_run : (run ticks).run .debug e = .ok () e') : e'.clock.now = e.clock.now + ticks := by
  obtain ⟨limit, h_limit, h_run⟩ := Action.run_liftM_bind_eq_ok_iff.1 h_run
  obtain ⟨h_lt, rfl⟩ := Checked.run_add_debug_iff.1 h_limit
  rw [now_of_run_repeatWhile h_lag (Nat.lt_add_left _ h_lt) h_run]
  exact Nat.max_eq_right (Nat.le_add_right _ _)

/-! ### Interrupts that return -/

variable [RoomyPinBank P]

/-- Serving the next event returns as long as a turn of the counter fits, and if an event comes, as
long as there is room for an interrupt. -/
theorem returns_serveNext {limit : Nat} (h_lag : e.board.lag = 0)
    (h_origin : e.clock.origin ≤ e.clock.now)
    (h_time : max e.clock.now limit + ticksPerWrap < Width.bits64.size)
    (h_room : e.clock.eventAt ≤ limit →
      RoomyPinBank.Room e.clock.now (e.queue.events.length + 2 * maxServos) e.pins ∧
        e.queue.events.length ≤ maxServos) :
    (serveNext limit).Returns .debug e fun _ _ => True := by
  have h_now : e.clock.now + ticksPerWrap < Width.bits64.size := by omega
  obtain ⟨event, clock, h_advance, h_same, h_from, h_by⟩ :=
    Clock.returns_advanceUntil limit h_origin h_now
  have h_board : (onClock (Clock.advanceUntil limit)).run .debug e =
      .ok event (e.withClock clock) :=
    Action.run_zoom_eq_ok_iff.2 ⟨_, Action.run_zoom_eq_ok_iff.2 ⟨clock, h_advance, rfl⟩, rfl⟩
  -- time passes first
  refine .bind ⟨event, _, h_board, rfl, rfl⟩
    (Q := fun more t => more = event ∧ t = e.withClock clock) fun more t _ h_t => ?_
  obtain ⟨rfl, rfl⟩ := h_t
  cases more with
  | false => exact .pure trivial
  | true =>
    -- the pins are asked for room only where an event comes
    have h_event : e.clock.eventAt ≤ limit := by
      have h_reach := (Clock.run_advanceUntil_debug_iff.1 h_advance).2
      rw [Clock.reach] at h_reach
      split at h_reach
      · rename_i h_and
        exact h_and.2
      · exact Bool.noConfusion (congrArg Prod.fst h_reach)
    obtain ⟨h_pins, h_len⟩ := h_room h_event
    have h_spare : Spare (e.queue.events.length + (2 * maxServos + 0)) maxServos
        (e.withClock clock) := by
      refine ⟨h_same ▸ Nat.le_trans h_origin h_from,
        RoomyPinBank.mono h_pins h_from (Nat.le_refl _), ?_⟩
      change clock.now + maxServos * e.board.lag + _ < _
      rw [h_lag]
      omega
    exact .bind (Spare.interrupt h_spare h_len) fun _ _ _ _ => .pure trivial

/-- No pin rose after the present time, and no more falls are pending than there are channels. -/
structure Roomy (e : Engine (Bench P)) : Prop where
  room : RoomyPinBank.Room e.clock.now 0 e.pins
  queue_le : e.queue.events.length ≤ maxServos

namespace Roomy

theorem serveStable : ServeStable (Roomy (P := P)) where
  lower {e e' f rest} h h_queue _ _ h_run := by
    obtain ⟨pins, h_pins, rfl⟩ := run_lower_eq_ok_iff.1 h_run
    have h_len := h.queue_le
    rw [h_queue] at h_len
    exact ⟨RoomyPinBank.of_drive h.room h_pins, Nat.le_of_succ_le h_len⟩
  arm {e f rest limit clock} h _ _ _ _ h_pass :=
    ⟨RoomyPinBank.mono h.room (Clock.keeps_passUntil limit h_pass).now_le (Nat.le_refl _),
      h.queue_le⟩
  setClock {e clock} h h_now _ :=
    ⟨RoomyPinBank.mono h.room (Nat.le_of_eq h_now.symm) (Nat.le_refl _), h.queue_le⟩
  setWrap h := ⟨h.room, h.queue_le⟩
  setPhase h := ⟨h.room, h.queue_le⟩
  beginPeriod {e e'} h h_run := by
    obtain ⟨low, high, h_low, h_high, rfl⟩ := run_beginPeriod_eq_ok h_run
    exact ⟨RoomyPinBank.of_driveAll (RoomyPinBank.of_driveAll h.room h_low) h_high,
      FallQueue.length_insertAll_falls_le _⟩

theorem stableUnder {cuts : Bool} {I : Engine (Bench P) → Prop} : StableUnder p cuts I Roomy where
  advance {e limit event clock} _ h h_run :=
    ⟨RoomyPinBank.mono h.room (Clock.keeps_advanceUntil limit h_run).now_le (Nat.le_refl _),
      h.queue_le⟩
  interrupt _ h h_run := serveStable.interrupt h h_run
  relist {e e'} _ h h_list := by
    cases h_list with
    | resume moving => exact ⟨h.room, h.queue_le⟩
    | list => exact ⟨RoomyPinBank.of_prepareAll h.room, h.queue_le⟩
  launch _ h _ := ⟨h.room, Nat.zero_le _⟩
  command _ h := ⟨h.room, h.queue_le⟩
  shutDown {e e'} _ h _ h_run := by
    obtain ⟨pins, h_pins, rfl⟩ := run_shutDown_eq_ok h_run
    exact ⟨RoomyPinBank.of_driveAll h.room h_pins, Nat.zero_le _⟩

end Roomy

/-- An engine without lag in a state of a run in which no stop gave up waiting. -/
structure Handy (e : Engine (Bench P)) : Prop where
  orderly : Orderly e
  bounded : Bounded e
  roomy : Roomy e
  lag_eq : e.board.lag = 0

theorem Handy.stable : Stable p false fun e : Engine (Bench P) =>
    (Orderly e ∧ Bounded e) ∧ Roomy e :=
  Bounded.stable.and Roomy.stableUnder

namespace Handy

theorem serveNext {limit : Nat} {event : Bool} (h : Handy e)
    (h_run : (Engine.serveNext limit).run .debug e = .ok event e') : Handy e' := by
  obtain ⟨⟨h_orderly, h_bounded⟩, h_roomy⟩ :=
    (stable (p := .debug)).serveNext ⟨⟨h.orderly, h.bounded⟩, h.roomy⟩ h_run
  exact ⟨h_orderly, h_bounded, h_roomy, (now_of_run_serveNext h.lag_eq h_run).1⟩

/-- There is room for an interrupt, as long as a turn of the counter fits. -/
theorem spare (h : Handy e) (h_time : e.clock.now + ticksPerWrap < Width.bits64.size) :
    Spare (3 * maxServos) maxServos e where
  origin_le := h.bounded.origin_le
  room := RoomyPinBank.of_faults h.roomy.room h.orderly.tied.faults_eq (by decide)
  time := by
    rw [h.lag_eq]
    exact h_time

theorem returns_serveNext {limit : Nat} (h : Handy e)
    (h_time : max e.clock.now limit + ticksPerWrap < Width.bits64.size) :
    (Engine.serveNext limit).Returns .debug e fun _ e' => Handy e' := by
  have h_len := h.roomy.queue_le
  have h_room := RoomyPinBank.mono (h.spare (by omega)).room (Nat.le_refl _)
    (show e.queue.events.length + 2 * maxServos ≤ 3 * maxServos by omega)
  refine (Engine.returns_serveNext h.lag_eq h.bounded.origin_le h_time fun _ => ?_).mono
    fun _ e' h_run _ => h.serveNext h_run
  exact ⟨h_room, h_len⟩

/-- **Running.** It returns, and ends right on time. -/
theorem returns_run {ticks : Nat} (h : Handy e)
    (h_time : e.clock.now + ticks + ticksPerWrap < Width.bits64.size) :
    (Engine.run ticks).Returns .debug e fun _ e' => Handy e' := by
  have h_fits : e.clock.now + ticks < Width.bits64.size :=
    Nat.lt_of_le_of_lt (Nat.le_add_right _ _) h_time
  refine .get_bind (.liftM_bind (Checked.run_add_of_lt h_fits .debug) ?_)
  refine (Action.Returns.repeatWhile (I := fun t : Engine (Bench P) =>
    Handy t ∧ t.clock.now ≤ e.clock.now + ticks) (fun t h_t => ?_)
    ⟨h, Nat.le_add_right _ _⟩).mono fun _ t _ h_t => h_t.1
  have h_limit : max t.clock.now (e.clock.now + ticks) = e.clock.now + ticks :=
    Nat.max_eq_right h_t.2
  refine (h_t.1.returns_serveNext (h_limit.symm ▸ h_time)).mono fun event u h_run h_u => ?_
  exact ⟨h_u, h_limit ▸ (now_of_run_serveNext h_t.1.lag_eq h_run).2.1⟩

/-- **Delays.** A delay that serves every interrupt returns. -/
theorem returns_delayUs {us : Nat} (h : Handy e)
    (h_time : e.clock.now + ticksPerMicrosecond * us + ticksPerWrap < Width.bits64.size) :
    (Engine.delayUs .serving us).Returns .debug e fun _ e' =>
      Handy e' ∧ e'.clock.now = e.clock.now + ticksPerMicrosecond * us := by
  rw [← sum_delayCalls] at h_time ⊢
  generalize h_end : e.clock.now + ((delayCalls us).map ticksOfNs).sum = last at *
  refine (Action.Returns.forM (I := fun calls t =>
    Handy t ∧ t.clock.now + (calls.map ticksOfNs).sum = last) (fun ns calls t h_t => ?_)
    ⟨h, h_end⟩).mono fun _ t _ h_t => h_t
  rw [List.map_cons, List.sum_cons] at h_t
  refine (h_t.1.returns_run (by omega)).mono fun _ u h_run h_u => ⟨h_u, ?_⟩
  rw [now_of_run h_t.1.lag_eq h_run, Nat.add_assoc]
  exact h_t.2

end Handy

end Engine

end ServoPulse
