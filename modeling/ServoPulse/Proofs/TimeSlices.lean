import ServoPulse.Proofs.NoTraps

/-!
# Slices of time

Running an engine for some ticks and then for some more is running it for all of them at once
(`run_add`), whatever its state and its pins, as long as arming the compare channel takes no time.

The first run may stop anywhere. If it stops between two events, the next event is computed again,
from a later time, and comes out at the same time as before (`Clock.reach_movedTo`), so that the
second run goes on where a single run would have been all along. If an event comes first, it comes
whatever the limit (`Clock.reach_of_event`). So a run in slices serves the events of a single run
one by one (`run_repeatWhile_slices`), and where one of the two traps so does the other, in the same
state.

That a run ends is a matter of time. Without lag an interrupt takes none, and so each event comes
later than the one before (`ends_serveNext`), whatever the interrupt arms. There are no more events
than ticks, and the tries of a run do not run out (`run_repeatWhile_fuel`). Only pins may keep a run
from its end, and recorded pins do so only where they cannot count a violation, which banks of
outputs never do (`run_slices`).
-/

namespace ServoPulse

/-! ### Jumps from a later time -/

namespace Clock

variable {p : Profile} {c : Clock} {limit later : Nat}

/-- The clock at a later time, before anything has happened. -/
def movedTo (c : Clock) (t : Nat) : Clock := { c with now := t }

/-- Until the turn of the counter ends, its ticks go up as time does. -/
theorem count_movedTo (h_origin : c.origin ≤ c.now) (h_le : c.now ≤ later)
    (h_lt : later < c.overflowAt) : (c.movedTo later).count = c.count + (later - c.now) :=
  (count_of_lt_overflowAt (d := c.movedTo later) h_origin rfl h_le h_lt).2

/-- Until the turn of the counter ends, it ends at the same time. -/
theorem overflowAt_movedTo (h_origin : c.origin ≤ c.now) (h_le : c.now ≤ later)
    (h_lt : later < c.overflowAt) : (c.movedTo later).overflowAt = c.overflowAt := by
  have h_turn := c.count_lt
  rw [overflowAt] at h_lt
  rw [overflowAt, count_movedTo h_origin h_le h_lt, overflowAt]
  change later + (ticksPerWrap - (c.count + (later - c.now))) = _
  omega

/-- Until the armed value is matched, it is matched at the same time, if the turn of the counter has
not ended either. -/
theorem matchAt?_movedTo (h_origin : c.origin ≤ c.now) (h_le : c.now ≤ later)
    (h_lt : later < c.overflowAt) (h_before : ∀ t, c.matchAt? = some t → later < t) :
    (c.movedTo later).matchAt? = c.matchAt? := by
  have h_shown : (Count.ofNat (later - c.origin)).val =
      (Count.ofNat (c.now - c.origin)).val + (later - c.now) :=
    count_movedTo h_origin h_le h_lt
  -- either clock has the match of its compare value, where it has one
  refine Option.map_congr fun value h_value => ?_
  have h_match := h_before _ (Option.map_eq_some_iff.2 ⟨value, h_value, rfl⟩)
  change later + ticksTo (.ofNat (later - c.origin)) value = _
  -- the counter has not come to the value, so it is on the same side of it as before
  unfold ticksTo at h_match ⊢
  simp only [Fin.lt_def, h_shown] at h_match ⊢
  have h_bound := value.isLt
  split at h_match <;> split <;> omega

/-- A jump comes to an event if a running timer has one up to the limit. -/
theorem fst_reach_eq_true_iff :
    (c.reach limit).1 = true ↔ c.running = true ∧ c.eventAt ≤ limit := by
  unfold reach
  split
  · exact iff_of_true rfl ‹_›
  · exact iff_of_false Bool.false_ne_true ‹_›

/-- A jump that comes to an event before one limit comes to it before a later one. -/
theorem reach_of_event (h_event : (c.reach limit).1 = true) (h_le : limit ≤ later) :
    c.reach later = c.reach limit := by
  have h_by := fst_reach_eq_true_iff.1 h_event
  rw [reach, reach, if_pos h_by, if_pos ⟨h_by.1, Nat.le_trans h_by.2 h_le⟩]

/-- A jump that comes to no event before its limit ends at the limit. -/
theorem reach_of_quiet (h_now : c.now ≤ limit) (h_quiet : (c.reach limit).1 = false) :
    c.reach limit = (false, c.movedTo limit) := by
  have h_not := mt fst_reach_eq_true_iff.2 (Bool.eq_false_iff.1 h_quiet)
  rw [reach, if_neg h_not, Nat.max_eq_right h_now, movedTo]

/-- A stopped timer has no event that would not fit. -/
theorem fits_of_stopped (h_run : c.running = false) : c.Fits := by
  have h_never {q : Prop} (h_runs : c.running = true) : q :=
    Bool.noConfusion (h_run.symm.trans h_runs)
  exact ⟨h_never, h_never, h_never⟩

/-- **A jump in two.** After a jump that comes to no event before its limit, the next one goes where
a single one would have gone. -/
theorem reach_movedTo (h_fits : c.Fits) (h_now : c.now ≤ limit)
    (h_quiet : (c.reach limit).1 = false) :
    (c.movedTo limit).Fits ∧
      ∀ later, limit ≤ later → (c.movedTo limit).reach later = c.reach later := by
  -- both clocks end at the same instant, be it past the limit or not
  have h_max {later : Nat} (h_le : limit ≤ later) :
      (c.movedTo limit).movedTo (max limit later) = c.movedTo (max c.now later) := by
    rw [Nat.max_eq_right h_le, Nat.max_eq_right (Nat.le_trans h_now h_le)]
    rfl
  -- a timer that stands still shows no event, so there is only the time to compare
  cases h_run : c.running with
  | false =>
    refine ⟨fits_of_stopped h_run, fun later h_le => ?_⟩
    rw [reach_of_stopped h_run, reach_of_stopped (c := c.movedTo limit) h_run]
    exact congrArg (Prod.mk false) (h_max h_le)
  | true =>
    -- no event has come by the limit, so both events of the turn are ahead of it
    have h_origin := h_fits.origin_le h_run
    have h_ahead : limit < c.eventAt := Nat.lt_of_not_le fun h_le =>
      Bool.eq_false_iff.1 h_quiet (fst_reach_eq_true_iff.2 ⟨h_run, h_le⟩)
    have h_turn : limit < c.overflowAt := Nat.lt_of_lt_of_le h_ahead c.eventAt_le_overflowAt
    have h_before (t : Nat) (h_t : c.matchAt? = some t) : limit < t := by
      rw [eventAt, h_t] at h_ahead
      exact Nat.lt_of_lt_of_le h_ahead (Nat.min_le_right _ _)
    have h_overflow := overflowAt_movedTo h_origin h_now h_turn
    have h_match := matchAt?_movedTo h_origin h_now h_turn h_before
    have h_event : (c.movedTo limit).eventAt = c.eventAt := by
      rw [eventAt, eventAt, h_overflow, h_match]
    -- the turn and the match are those of the clock it came from, and so is what fits
    refine ⟨⟨fun _ => Nat.le_trans h_origin h_now, fun _ => ?_, fun _ t h_t => ?_⟩,
      fun later h_le => ?_⟩
    · exact h_overflow.symm ▸ h_fits.overflow_lt h_run
    · exact h_fits.match_lt h_run t (h_match ▸ h_t)
    · rw [reach, reach, h_event, h_overflow, h_match]
      refine congrArg₂ (ite _) rfl ?_
      exact congrArg (Prod.mk false) (h_max h_le)

/-- No time passes up to a limit that is not ahead. -/
theorem ends_passUntil_now (h_origin : c.origin ≤ c.now) (h_limit : limit ≤ c.now)
    (h_turn : p = .release → c.now + ticksPerWrap < Width.bits64.size) :
    Action.Ends p (passUntil limit) c (fun _ d => d = c)
      fun d => d = c ∧ p = .debug ∧ Width.bits64.size ≤ c.now + ticksPerWrap := by
  -- one jump that finds the limit behind it changes nothing, or traps
  have h_jump : Action.Confined (· = c)
      (fun d => d = c ∧ p = .debug ∧ Width.bits64.size ≤ c.now + ticksPerWrap) p
      (advanceUntil limit) := by
    rintro d rfl
    refine (ends_reach limit fun h => fits_of_lt h_origin (h_turn h)).mono ?_ ?_
    · rintro event d' ⟨-, h_reach⟩
      rw [reach_of_le h_limit] at h_reach
      exact (congrArg Prod.snd h_reach).symm
    · rintro d' ⟨rfl, h_debug, h_not⟩
      exact ⟨rfl, h_debug, Nat.le_of_not_lt fun h_lt => h_not (fits_of_lt h_origin h_lt)⟩
  exact h_jump.repeatWhile _ c rfl

end Clock

/-! ### Pins -/

section Pins

variable {P : Type} [PinBank P] {p : Profile}

/-- Driving pins at the time `now` keeps `K now`, or traps where `T` holds. As time passes, `K`
remains true. -/
structure PinsKeep (p : Profile) (K : Nat → P → Prop) (T : P → Prop) : Prop where
  drive : ∀ level now pin, Action.Confined (K now) T p (PinBank.drive level now pin)
  mono : ∀ {now later : Nat} {r : P}, now ≤ later → K now r → K later r

theorem pinsKeep_true : PinsKeep (P := P) p (fun _ _ => True) fun _ => True where
  drive level now pin r _ := by
    unfold Action.Ends
    split <;> trivial
  mono _ := id

theorem PinRecorder.pinsKeep : PinsKeep p RoseBy fun r =>
    p = .debug ∧ Width.bits32.size ≤ r.violations + 1 where
  drive level now pin := (confined_drive level now pin).mono fun _ h => ⟨h.debug, h.full⟩
  mono h_le h pin t h_high := Nat.le_trans (h pin t h_high) h_le

theorem OutputBank.pinsKeep : PinsKeep (P := OutputBank) p (fun _ _ => True) fun _ => False where
  drive level now pin b h := by
    cases level with
    | true => exact .ok rfl trivial
    | false => exact .ok rfl trivial
  mono _ := id

end Pins

/-! ### Boards without lag -/

namespace Bench

variable {P : Type} [PinBank P] {p : Profile} {K : Nat → P → Prop} {T : P → Prop} {now : Nat}

/-- A board without lag at the time `now`, with pins as `K` says. -/
structure AtOnce (now : Nat) (K : Nat → P → Prop) (b : Bench P) : Prop where
  lag_eq : b.lag = 0
  now_eq : b.clock.now = now
  origin_le : b.clock.origin ≤ now
  pins : K now b.pins

/-- A board at the time `now` where the pins gave out, or the time. -/
structure GivesOut (p : Profile) (now : Nat) (T : P → Prop) (b : Bench P) : Prop where
  now_eq : b.clock.now = now
  out : T b.pins ∨ p = .debug ∧ Width.bits64.size ≤ now + ticksPerWrap

omit [PinBank P] in
/-- Without lag, arming the compare channel takes no time. -/
theorem confined_armCompare_now (value : Count)
    (h_turn : p = .release → now + ticksPerWrap < Width.bits64.size) :
    Action.Confined (AtOnce now K) (GivesOut p now T) p (armCompare value) := by
  intro b h
  obtain ⟨h_lag, rfl, h_origin, h_pins⟩ := h
  have h_armed : AtOnce b.clock.now K { b with clock := b.clock.arm value } :=
    ⟨h_lag, rfl, h_origin, h_pins⟩
  refine .modify_bind (.get_bind (.liftM_bind_of_run (fun limit h_limit => .zoom ?_) ?_))
  · -- the limit is the present instant, as there is no lag
    have h_le : limit ≤ b.clock.now := by
      have h_limit : (Checked.add .bits64 b.clock.now b.lag).run p = .ok limit := h_limit
      rw [h_lag] at h_limit
      exact Checked.le_of_run_add h_limit
    refine (Clock.ends_passUntil_now (c := b.clock.arm value) h_origin h_le h_turn).mono ?_ ?_
    · rintro - clock rfl
      exact h_armed
    · rintro clock ⟨rfl, h_out⟩
      exact ⟨rfl, .inr h_out⟩
  · -- without a lag it is the time itself that has run out
    intro trap h_trap
    have h_size : Width.bits64.size ≤ b.clock.now + b.lag := Checked.size_le_of_run_add h_trap
    refine ⟨rfl, .inr ⟨Checked.debug_of_run_add h_trap, ?_⟩⟩
    omega

theorem confined_drive_now (hK : PinsKeep p K T) (level : Bool) (pin : Nat) :
    Action.Confined (σ := Bench P) (AtOnce now K) (GivesOut p now T) p
      (do onPins (PinBank.drive level (← get).clock.now pin)) := by
  intro b h
  obtain ⟨h_lag, rfl, h_origin, h_pins⟩ := h
  refine .get_bind (.zoom ((hK.drive level b.clock.now pin b.pins h_pins).mono ?_ ?_))
  · exact fun _ pins h_kept => ⟨h_lag, rfl, h_origin, h_kept⟩
  · exact fun pins h_out => ⟨rfl, .inl h_out⟩

/-- Without lag, an interrupt takes no time. -/
theorem serviceStable_atOnce (hK : PinsKeep p K T)
    (h_turn : p = .release → now + ticksPerWrap < Width.bits64.size) :
    Engine.ServiceStable p (fun e : Engine (Bench P) => e.board.AtOnce now K)
      fun e => e.board.GivesOut p now T where
  setHigh pin _ h := .zoom (confined_drive_now hK true pin _ h)
  setLow pin _ h := .zoom (confined_drive_now hK false pin _ h)
  armCompare value _ h := .zoom (confined_armCompare_now value h_turn _ h)
  disarmCompare _ h := ⟨h.lag_eq, h.now_eq, h.origin_le, h.pins⟩
  takeOverflow _ h := ⟨h.lag_eq, h.now_eq, h.origin_le, h.pins⟩
  takeCompare _ h := ⟨h.lag_eq, h.now_eq, h.origin_le, h.pins⟩
  counter _ _ h h_run := absurd h_run (Clock.not_error_of_counter (h.now_eq.symm ▸ h.origin_le))
  book _ _ h h_book := h_book.board_eq.symm ▸ h

end Bench

/-! ### Serving one event -/

namespace Engine

variable {P : Type} [PinBank P] {p : Profile} {K : Nat → P → Prop} {T : P → Prop}
  {e : Engine (Bench P)} {first limit last a b ticks fuel fuel' : Nat}

/-- There is time for all that happens up to the time `last`: the lag is zero, and in the `release`
profile, which does not check sums of times, a turn of the counter that has begun by then fits. -/
structure HasTime (p : Profile) (last : Nat) (e : Engine (Bench P)) : Prop where
  lag_eq : e.board.lag = 0
  origin_le : e.clock.origin ≤ e.clock.now
  now_le : e.clock.now ≤ last
  last_lt : last < Width.bits64.size
  turn_lt : p = .release → e.clock.running = true → last + ticksPerWrap < Width.bits64.size

/-- What follows a jump of time. -/
def serveIf (event : Bool) : Action (Engine (Bench P)) Bool := do
  if event then interrupt
  return event

omit [PinBank P] in
theorem HasTime.fits (h : e.HasTime p last) (h_release : p = .release) : e.clock.Fits := by
  cases h_run : e.clock.running with
  | true =>
    have h_turn := h.turn_lt h_release h_run
    have h_now := h.now_le
    exact Clock.fits_of_lt h.origin_le (by omega)
  | false => exact Clock.fits_of_stopped h_run

theorem run_serveNext_of_fits (h_fits : e.clock.Fits) (limit : Nat) (p : Profile) :
    (serveNext limit).run p e =
      (serveIf (e.clock.reach limit).1).run p (e.withClock (e.clock.reach limit).2) := by
  have h_jump : (onClock (Clock.advanceUntil limit)).run p e =
      .ok (e.clock.reach limit).1 (e.withClock (e.clock.reach limit).2) :=
    Action.run_zoom_eq_ok_iff.2 ⟨_, Action.run_zoom_eq_ok_iff.2
      ⟨_, Clock.run_advanceUntil_of_fits h_fits limit p, rfl⟩, rfl⟩
  change ((onClock (Clock.advanceUntil limit)) >>= serveIf).run p e = _
  rw [Action.run_bind, h_jump]

/-- A jump that traps does so whatever its limit. -/
theorem run_serveNext_of_not_fits (h_not : ¬e.clock.Fits) (limit limit' : Nat) :
    ∃ trap, (serveNext limit).run .debug e = .error trap e ∧
      (serveNext limit').run .debug e = .error trap e := by
  have h_reach := Clock.ends_reach (p := .debug) (c := e.clock) limit fun h =>
    Profile.noConfusion h
  cases h_run : (Clock.advanceUntil limit).run .debug e.clock with
  | ok event clock => exact absurd (h_reach.of_run h_run).1 h_not
  | error trap clock =>
    -- the jump traps alike for every limit, before anything has changed
    have h_trap (limit' : Nat) : (serveNext limit').run .debug e = .error trap e := by
      change ((onClock (Clock.advanceUntil limit')) >>= serveIf).run .debug e = _
      have h_jump : (onClock (Clock.advanceUntil limit')).run .debug e = .error trap e := by
        rw [onClock, onBoard, Action.run_zoom, Bench.onClock, Action.run_zoom,
          Clock.run_advanceUntil_eq_error h_run limit']
      rw [Action.run_bind, h_jump]
    exact ⟨trap, h_trap limit, h_trap limit'⟩

/-- Where no event comes before the limit, time moves to the limit and nothing is served. -/
theorem run_serveNext_of_quiet (h_fits : e.clock.Fits) (h_now : e.clock.now ≤ limit)
    (h_quiet : (e.clock.reach limit).1 = false) (p : Profile) :
    (serveNext limit).run p e = .ok false (e.withClock (e.clock.movedTo limit)) := by
  rw [run_serveNext_of_fits h_fits, Clock.reach_of_quiet h_now h_quiet]
  rfl

/-- A clock whose next event does not fit gives out in the jump, with the time unchanged. -/
theorem ends_serveNext_of_not_fits {Q : Bool → Engine (Bench P) → Prop} (h : e.HasTime p last)
    (h_not : ¬e.clock.Fits) :
    (serveNext limit).Ends p e Q fun e' => e'.board.GivesOut p e'.clock.now T := by
  cases p with
  | release =>
    -- the unchecked profile has been given time for the turn
    exact absurd (h.fits rfl) h_not
  | debug =>
    obtain ⟨trap, h_trap, -⟩ := run_serveNext_of_not_fits h_not limit limit
    unfold Action.Ends
    rw [h_trap]
    refine ⟨rfl, .inr ⟨rfl, Nat.le_of_not_lt fun h_lt => h_not ?_⟩⟩
    exact Clock.fits_of_lt h.origin_le h_lt

/-- The jump to an event leaves the board at the time of the event. -/
theorem HasTime.atOnce_of_event (hK : PinsKeep p K T) (h : e.HasTime p last)
    (h_pins : K e.clock.now e.pins) (h_event : (e.clock.reach limit).1 = true) :
    Bench.AtOnce e.clock.eventAt K (e.withClock (e.clock.reach limit).2).board := by
  have h_ahead := e.clock.lt_eventAt
  rw [Clock.reach, if_pos (Clock.fst_reach_eq_true_iff.1 h_event)]
  exact ⟨h.lag_eq, rfl, Nat.le_of_lt (Nat.lt_of_le_of_lt h.origin_le h_ahead),
    hK.mono (Nat.le_of_lt h_ahead) h_pins⟩

/-- Without lag, the interrupt that answers an event ends at the time of the event. -/
theorem ends_interrupt_of_event (hK : PinsKeep p K T) (h : e.HasTime p last)
    (h_pins : K e.clock.now e.pins) (h_limit : limit ≤ last)
    (h_event : (e.clock.reach limit).1 = true) :
    interrupt.Ends p (e.withClock (e.clock.reach limit).2)
      (fun _ e' => e'.HasTime p last ∧ K e'.clock.now e'.pins ∧ e'.clock.now = e.clock.eventAt)
      fun e' => e'.board.GivesOut p e'.clock.now T := by
  obtain ⟨h_run, h_by⟩ := Clock.fst_reach_eq_true_iff.1 h_event
  have h_turn (h_release : p = .release) :
      e.clock.eventAt + ticksPerWrap < Width.bits64.size := by
    have h_turn := h.turn_lt h_release h_run
    omega
  -- the interrupt begins at the instant of the event, and takes no time
  refine ((Bench.serviceStable_atOnce hK h_turn).interrupt _
    (h.atOnce_of_event hK h_pins h_event)).mono (fun _ e' h_e' => ?_) fun e' h_out => ?_
  · obtain ⟨h_lag', h_now', h_origin', h_pins'⟩ := h_e'
    have h_now' : e'.clock.now = e.clock.eventAt := h_now'
    refine ⟨⟨h_lag', ?_, ?_, h.last_lt, fun h_release _ => h.turn_lt h_release h_run⟩, ?_⟩
    · exact h_now'.symm ▸ h_origin'
    · exact h_now'.symm ▸ Nat.le_trans h_by h_limit
    · exact ⟨h_now'.symm ▸ h_pins', h_now'⟩
  · -- the time at which it traps is that of the event
    obtain ⟨h_now', h_out⟩ := h_out
    exact ⟨rfl, h_now'.symm ▸ h_out⟩

/-- **One event.** Serving it moves time forward, at most to the limit. Where no event comes before
the limit, time ends there, and nothing is left to serve. -/
theorem ends_serveNext (hK : PinsKeep p K T) (h : e.HasTime p last) (h_pins : K e.clock.now e.pins)
    (h_now : e.clock.now ≤ limit) (h_limit : limit ≤ last) :
    (serveNext limit).Ends p e
      (fun event e' => e'.HasTime p last ∧ K e'.clock.now e'.pins ∧ e'.clock.now ≤ limit ∧
        (event = true → e.clock.now < e'.clock.now) ∧
        (event = false → e'.clock.now = limit ∧ (serveNext limit).run p e' = .ok false e'))
      fun e' => e'.board.GivesOut p e'.clock.now T := by
  by_cases h_fits : e.clock.Fits
  -- a turn that does not fit in the time that is left traps before anything happens
  swap
  · exact ends_serveNext_of_not_fits h h_fits
  unfold Action.Ends
  cases h_event : (e.clock.reach limit).1 with
  | false =>
    obtain ⟨h_fits', h_same⟩ := Clock.reach_movedTo h_fits h_now h_event
    have h_time : (e.withClock (e.clock.movedTo limit)).HasTime p last :=
      ⟨h.lag_eq, Nat.le_trans h.origin_le h_now, h_limit, h.last_lt, h.turn_lt⟩
    -- time is at the limit, where another jump stays, as no event has come
    have h_quiet : ((e.clock.movedTo limit).reach limit).1 = false := by
      rw [h_same limit (Nat.le_refl _), h_event]
    have h_still : (serveNext limit).run p (e.withClock (e.clock.movedTo limit)) =
        .ok false (e.withClock (e.clock.movedTo limit)) :=
      run_serveNext_of_quiet (e := e.withClock (e.clock.movedTo limit)) h_fits' (Nat.le_refl _)
        h_quiet p
    rw [run_serveNext_of_quiet h_fits h_now h_event]
    exact ⟨h_time, hK.mono h_now h_pins, Nat.le_refl _, (absurd · Bool.false_ne_true),
      fun _ => ⟨rfl, h_still⟩⟩
  | true =>
    -- the event is ahead of the present time and not after the limit
    have h_ahead := e.clock.lt_eventAt
    have h_by := (Clock.fst_reach_eq_true_iff.1 h_event).2
    rw [run_serveNext_of_fits h_fits, h_event]
    refine (ends_interrupt_of_event hK h h_pins h_limit h_event).bind fun _ e' h_e' => ?_
    obtain ⟨h', h_pins', h_at⟩ := h_e'
    exact .pure ⟨h', h_pins', h_at.symm ▸ h_by, fun _ => h_at.symm ▸ h_ahead,
      fun h_none => absurd h_none.symm Bool.false_ne_true⟩

/-! ### Serving all events -/

/-- **All events.** With more tries than there are ticks up to the limit, time ends at the limit and
nothing is left to serve. -/
theorem ends_repeatWhile (hK : PinsKeep p K T) (h : e.HasTime p last)
    (h_pins : K e.clock.now e.pins) (h_now : e.clock.now ≤ limit) (h_limit : limit ≤ last)
    (h_fuel : limit < e.clock.now + fuel) :
    (Action.repeatWhile (serveNext limit) fuel).Ends p e
      (fun _ e' => e'.HasTime p last ∧ K e'.clock.now e'.pins ∧ e'.clock.now = limit ∧
        (serveNext limit).run p e' = .ok false e')
      fun e' => e'.board.GivesOut p e'.clock.now T := by
  -- by induction on the fuel; each event is later than the one before, so the fuel is enough
  induction fuel generalizing e with
  | zero => exact absurd h_fuel (Nat.not_lt_of_le h_now)
  | succ fuel ih =>
    refine .bind (ends_serveNext hK h h_pins h_now h_limit) fun event e' h_e' => ?_
    obtain ⟨h', h_pins', h_now', h_event, h_quiet⟩ := h_e'
    cases event with
    | true =>
      have h_ahead := h_event rfl
      exact ih h' h_pins' h_now' (by omega)
    | false =>
      -- no event before the limit, and the loop ends there
      exact .pure ⟨h', h_pins', h_quiet rfl⟩

/-- What one try does decides where all tries end, if there are more of them than ticks. -/
theorem run_repeatWhile_fuel (h : e.HasTime p last) (h_now : e.clock.now ≤ limit)
    (h_limit : limit ≤ last) (h_fuel : limit < e.clock.now + fuel)
    (h_fuel' : limit < e.clock.now + fuel') :
    (Action.repeatWhile (serveNext limit) fuel).run p e =
      (Action.repeatWhile (serveNext limit) fuel').run p e := by
  -- by induction on the fuel of the first run, in step with that of the second
  induction fuel generalizing e fuel' with
  | zero => exact absurd h_fuel (Nat.not_lt_of_le h_now)
  | succ fuel ih =>
    cases fuel' with
    | zero => exact absurd h_fuel' (Nat.not_lt_of_le h_now)
    | succ fuel' =>
      have h_serve := ends_serveNext pinsKeep_true h trivial h_now h_limit
      rw [Action.repeatWhile, Action.repeatWhile, Action.run_bind, Action.run_bind]
      cases h_run : (serveNext limit).run p e with
      | error trap e' =>
        -- a trap, or the end of the loop, comes in both alike
        rfl
      | ok event e' =>
        obtain ⟨h', -, h_now', h_event, -⟩ := h_serve.of_run h_run
        cases event with
        | false => rfl
        | true =>
          have h_ahead := h_event rfl
          exact ih h' h_now' (by omega) (by omega)

/-- A try comes to an event or a trap whatever its limit; or it comes to the limit, and the next
try comes to where it would have come with a later limit. -/
theorem run_serveNext_slices (h : e.HasTime p last) (h_now : e.clock.now ≤ first)
    (h_le : first ≤ limit) :
    ((serveNext first).run p e = (serveNext limit).run p e ∧
      ∀ e', (serveNext first).run p e ≠ .ok false e') ∨
    ∃ e', (serveNext first).run p e = .ok false e' ∧ e'.clock.now = first ∧
      (serveNext limit).run p e' = (serveNext limit).run p e := by
  by_cases h_fits : e.clock.Fits
  swap
  · -- where no turn fits both jumps trap, and with the same trap
    cases p with
    | release => exact absurd (h.fits rfl) h_fits
    | debug =>
      obtain ⟨trap, h_first, h_limit⟩ := run_serveNext_of_not_fits h_fits first limit
      rw [h_first, h_limit]
      exact .inl ⟨rfl, nofun⟩
  rw [run_serveNext_of_fits h_fits, run_serveNext_of_fits h_fits]
  -- an event before the first limit is before the second one also
  cases h_event : (e.clock.reach first).1 with
  | true =>
    refine .inl ⟨?_, fun e' h_run => ?_⟩
    · rw [Clock.reach_of_event h_event h_le, h_event]
    · -- an event is answered
      obtain ⟨⟨⟩, t, -, h_answer⟩ := Action.run_bind_eq_ok_iff.1 h_run
      exact Bool.noConfusion (Action.run_pure_eq_ok_iff.1 h_answer).1
  | false =>
    obtain ⟨h_fits', h_same⟩ := Clock.reach_movedTo h_fits h_now h_event
    refine .inr ⟨e.withClock (e.clock.movedTo first), ?_, rfl, ?_⟩
    · rw [Clock.reach_of_quiet h_now h_event]
      rfl
    · -- the jump from where the first one ended is the jump from the start
      rw [run_serveNext_of_fits h_fits']
      change (serveIf ((e.clock.movedTo first).reach limit).1).run p
        (e.withClock ((e.clock.movedTo first).reach limit).2) = _
      rw [h_same limit h_le]

/-- **All events in two slices.** They end where they end in one. -/
theorem run_repeatWhile_slices (h : e.HasTime p last) (h_now : e.clock.now ≤ first)
    (h_le : first ≤ limit) (h_limit : limit ≤ last) (h_fuel : first < e.clock.now + fuel)
    (h_fuel' : limit < e.clock.now + fuel') {rest : Nat} (h_rest : limit < first + rest) :
    (do Action.repeatWhile (serveNext first) fuel
        Action.repeatWhile (serveNext limit) rest).run p e =
      (Action.repeatWhile (serveNext limit) fuel').run p e := by
  -- by induction on the fuel of the first slice, which is the one that serves the events
  induction fuel generalizing e fuel' with
  | zero => exact absurd h_fuel (Nat.not_lt_of_le h_now)
  | succ fuel ih =>
    obtain ⟨fuel', rfl⟩ : ∃ n, fuel' = n + 1 := ⟨fuel' - 1, by omega⟩
    have h_serve := ends_serveNext pinsKeep_true h trivial h_now (Nat.le_trans h_le h_limit)
    rw [Action.run_bind, Action.repeatWhile, Action.run_bind]
    rcases run_serveNext_slices h h_now h_le with ⟨h_same, h_answer⟩ | ⟨e', h_first, h_at, h_same⟩
    · -- both runs come to the same event, or to the same trap
      rw [Action.repeatWhile, Action.run_bind, ← h_same]
      cases h_run : (serveNext first).run p e with
      | error trap e' => rfl
      | ok event e' =>
        cases event with
        | false =>
          -- here the first slice has come to an event, and says so
          exact absurd h_run (h_answer e')
        | true =>
          obtain ⟨h', -, h_now', h_event, -⟩ := h_serve.of_run h_run
          have h_ahead := h_event rfl
          have h_ih : (do Action.repeatWhile (serveNext first) fuel
                          Action.repeatWhile (serveNext limit) rest).run p e' =
              (Action.repeatWhile (serveNext limit) fuel').run p e' :=
            ih h' h_now' (by omega) (by omega)
          rw [Action.run_bind] at h_ih
          exact h_ih
    · -- the first slice ends, and the second one goes on from its end
      obtain ⟨h', -⟩ := h_serve.of_run h_first
      have h_fuels : (Action.repeatWhile (serveNext limit) rest).run p e' =
          (Action.repeatWhile (serveNext limit) (fuel' + 1)).run p e' :=
        run_repeatWhile_fuel h' (h_at.symm ▸ h_le) h_limit (by omega) (by omega)
      rw [h_first]
      change (Action.repeatWhile (serveNext limit) rest).run p e' = _
      rw [h_fuels, Action.repeatWhile, Action.run_bind, Action.run_bind, h_same]

/-! ### Runs -/

theorem run_run (h_lt : e.clock.now + ticks < Width.bits64.size) :
    (run ticks).run p e =
      (Action.repeatWhile (serveNext (e.clock.now + ticks)) Clock.instants).run p e := by
  have h_after : (e.after ticks).run p = .ok (e.clock.now + ticks) := Checked.run_add_of_lt h_lt p
  rw [run, Action.run_get_bind, Action.run_bind, Action.run_liftM, h_after]

theorem lt_add_instants {t now : Nat} (h : t < Width.bits64.size) : t < now + Clock.instants :=
  Nat.lt_add_left _ h

/-- **Running in two slices.** Where there is time for all of it, to run for `a` ticks and then for
`b` ticks ends as to run for `a + b` ticks does, in the same state or with the same trap. -/
theorem run_add (h : e.HasTime p (e.clock.now + (a + b))) :
    (do run a; run b).run p e = (run (a + b)).run p e := by
  have h_first : e.clock.now + a ≤ e.clock.now + (a + b) := by omega
  have h_lt : e.clock.now + a < Width.bits64.size := Nat.lt_of_le_of_lt h_first h.last_lt
  -- the first slice ends at its limit, with time left for the second one
  have h_loop := ends_repeatWhile pinsKeep_true h trivial (Nat.le_add_right _ a) h_first
    (lt_add_instants h_lt)
  rw [run_run h.last_lt, ← run_repeatWhile_slices h (Nat.le_add_right _ a) h_first (Nat.le_refl _)
    (lt_add_instants h_lt) (lt_add_instants h.last_lt) (lt_add_instants h.last_lt), Action.run_bind,
    Action.run_bind, run_run h_lt]
  -- a trap of the first slice is one of the whole run
  cases h_run : (Action.repeatWhile (serveNext (e.clock.now + a)) Clock.instants).run p e with
  | error trap e' => rfl
  | ok _ e' =>
    obtain ⟨h', -, h_at, -⟩ := h_loop.of_run h_run
    have h_sum : e'.clock.now + b = e.clock.now + (a + b) := by omega
    change (run b).run p e' = (Action.repeatWhile (serveNext _) _).run p e'
    rw [run_run (h_sum.symm ▸ h.last_lt), h_sum]

/-- **The end of a run.** A run that returns does so right after its ticks, when nothing is left to
serve, with the pins as they are kept. It traps only where the pins or the time give out. -/
theorem ends_run (hK : PinsKeep p K T) (h : e.HasTime p last) (h_pins : K e.clock.now e.pins)
    (h_last : e.clock.now + ticks ≤ last) :
    (run ticks).Ends p e
      (fun _ e' => e'.HasTime p last ∧ K e'.clock.now e'.pins ∧ e'.clock.now = e.clock.now + ticks ∧
        (serveNext e'.clock.now).run p e' = .ok false e')
      fun e' => e'.board.GivesOut p e'.clock.now T := by
  have h_lt : e.clock.now + ticks < Width.bits64.size := Nat.lt_of_le_of_lt h_last h.last_lt
  unfold Action.Ends
  rw [run_run h_lt]
  refine (ends_repeatWhile hK h h_pins (Nat.le_add_right _ _) h_last (lt_add_instants h_lt)).mono
    (fun _ e' h_e' => ?_) fun _ => id
  obtain ⟨h', h_pins', h_at, h_still⟩ := h_e'
  exact ⟨h', h_pins', h_at, h_at.symm ▸ h_still⟩

/-- What holds of a run of recorded pins or of a bank of outputs, from an engine that had time until
`last`: it returns right on time, when nothing is left to serve, and the engine has time until
`last` as before. In the `debug` profile it may trap instead, where the pins gave out as `T` says or
where no turn of the counter fits before the last instant. -/
def EndsOnTime (p : Profile) (last : Nat) (T : P → Prop) (e : Engine (Bench P)) (ticks : Nat) :
    Prop :=
  (run ticks).Ends p e
    (fun _ e' => e'.HasTime p last ∧ e'.clock.now = e.clock.now + ticks ∧
      (serveNext e'.clock.now).run p e' = .ok false e')
    fun e' => p = .debug ∧ (T e'.pins ∨ Width.bits64.size ≤ e'.clock.now + ticksPerWrap)

/-- **Slices of time.** Without lag, and as long as time lasts, a run in two slices ends as a run in
one does, on whatever pins, also under a scope that writes down every change of a level. The tries
of a run do not run out, and with recorded pins or outputs it ends right on time; recorded pins may
trap instead where they cannot count a violation. -/
theorem run_slices (p : Profile) (a b : Nat) :
    (∀ {P : Type} [PinBank P] {e : Engine (Bench P)}, e.HasTime p (e.clock.now + (a + b)) →
      (do run a; run b).run p e = (run (a + b)).run p e ∧
      ∀ ticks fuel : Nat, ticks ≤ a + b → ticks < fuel →
        (run ticks).run p e =
          (Action.repeatWhile (serveNext (e.clock.now + ticks)) fuel).run p e) ∧
    (∀ {e : Engine (Bench PinRecorder)}, e.HasTime p (e.clock.now + (a + b)) →
      e.pins.RoseBy e.clock.now → ∀ ticks ≤ a + b,
        e.EndsOnTime p (e.clock.now + (a + b))
          (fun pins => Width.bits32.size ≤ pins.violations + 1) ticks) ∧
    ∀ {e : Engine (Bench OutputBank)}, e.HasTime p (e.clock.now + (a + b)) → ∀ ticks ≤ a + b,
      e.EndsOnTime p (e.clock.now + (a + b)) (fun _ => False) ticks := by
  refine ⟨fun h => ⟨run_add h, fun ticks fuel h_ticks h_fuel => ?_⟩,
    fun h h_rose ticks h_ticks => ?_, fun h ticks h_ticks => ?_⟩
  · have h_lt := Nat.lt_of_le_of_lt (Nat.add_le_add_left h_ticks _) h.last_lt
    rw [run_run h_lt]
    exact run_repeatWhile_fuel h (Nat.le_add_right _ _) (Nat.add_le_add_left h_ticks _)
      (lt_add_instants h_lt) (Nat.add_lt_add_left h_fuel _)
  · -- on the recorder a run may end early, where the count of violations is full or time is over
    refine (ends_run PinRecorder.pinsKeep h h_rose (Nat.add_le_add_left h_ticks _)).mono
      (fun _ e' h_e' => ⟨h_e'.1, h_e'.2.2⟩) fun e' h_out => ?_
    rcases h_out.out with ⟨h_debug, h_full⟩ | ⟨h_debug, h_turn⟩
    · exact ⟨h_debug, .inl h_full⟩
    · exact ⟨h_debug, .inr h_turn⟩
  · -- a request to an output never traps, so only the end of time is left
    refine (ends_run OutputBank.pinsKeep h trivial (Nat.add_le_add_left h_ticks _)).mono
      (fun _ e' h_e' => ⟨h_e'.1, h_e'.2.2⟩) fun e' h_out => ?_
    rcases h_out.out with h_never | ⟨h_debug, h_turn⟩
    · exact h_never.elim
    · exact ⟨h_debug, .inr h_turn⟩

/-- A pulse of 1500 µs that has just begun. -/
def justBegun : Option (Engine (Bench PinRecorder)) :=
  replay? .debug
    [.start (some [2]), .command (.targetUs 0 1500), .advance 65536, .interrupt]
    (freshRecorded {} 0 0)

theorem isSome_justBegun : justBegun.isSome = true := by decide +kernel

/-- The first of two slices ends at the very tick at which the pulse does, and the second one goes
over the end of the turn. -/
theorem run_slices_justBegun :
    (justBegun.get isSome_justBegun).HasTime .debug
      ((justBegun.get isSome_justBegun).clock.now + (36000 + 30000)) ∧
    (justBegun.get isSome_justBegun).pins.RoseBy (justBegun.get isSome_justBegun).clock.now ∧
    (justBegun.get isSome_justBegun).clock.eventAt = 65536 + 36000 ∧
    ∃ e', (do run 36000; run 30000).run .debug (justBegun.get isSome_justBegun) = .ok () e' ∧
      e'.clock.now = 65536 + 66000 ∧ e'.pins.pulses = [⟨2, 65536, 36000⟩] ∧
      (serveNext e'.clock.now).run .debug e' = .ok false e' := by
  have h_lag : (justBegun.get isSome_justBegun).board.lag = 0 := by decide +kernel
  have h_now : (justBegun.get isSome_justBegun).clock.now = 65536 := by decide +kernel
  have h_event : (justBegun.get isSome_justBegun).clock.eventAt = 65536 + 36000 := by
    decide +kernel
  have h_result : (((run (36000 + 30000)).result? .debug (justBegun.get isSome_justBegun)).map
      fun r => (r.2.clock.now, r.2.pins.pulses)) = some (131536, [⟨2, 65536, 36000⟩]) := by
    decide +kernel
  have h_past := (Reached.new.of_replay? (Option.some_get isSome_justBegun).symm).holds.board
  generalize justBegun.get isSome_justBegun = e at *
  have h_time : e.HasTime .debug (e.clock.now + (36000 + 30000)) :=
    { lag_eq := h_lag
      origin_le := h_past.origin_le
      now_le := Nat.le_add_right _ _
      last_lt := by
        rw [h_now]
        decide
      turn_lt := nofun }
  obtain ⟨⟨⟨⟩, e'⟩, h_run, h_view⟩ := Option.map_eq_some_iff.1 h_result
  obtain ⟨h_now', h_pulses'⟩ := Prod.mk.inj h_view
  have h_run : (run (36000 + 30000)).run .debug e = .ok () e' :=
    Action.run_eq_ok_of_result? h_run
  obtain ⟨h_any, h_recorded, -⟩ := run_slices .debug 36000 30000
  have h_slices := (h_any h_time).1
  -- with the sum written out, the elaborator would unfold the run
  generalize 36000 + 30000 = ticks at *
  obtain ⟨-, -, h_still⟩ :=
    Action.Ends.of_run (h_recorded h_time h_past.roseBy ticks (Nat.le_refl _)) h_run
  exact ⟨h_time, h_past.roseBy, h_event, e', h_slices.trans h_run, h_now', h_pulses', h_still⟩

end Engine

end ServoPulse
