import ServoPulse.Proofs.Returning

/-!
# Jumps and ticks

The simulated clock never ticks. `Clock.tick` is what a counter in hardware does: time moves by one,
and the flags of the value that the counter comes to show go up. `Clock.tickUntil` ticks up to a
limit, but no further than the first tick that raises a flag.

A jump of time is as good as that (`advanceUntil_ticks`). The invariant is that the times of the
next overflow and of the next match stay where they are over a tick that raises nothing, and that a
tick raises a flag exactly if it comes to the time of that flag. How far the armed value is from the
counter, modulo a turn, enters by `ticksTo_eq_one_iff` and `ticksTo_succ` alone.
-/

namespace ServoPulse

namespace Clock

/-! ### Ticks -/

/-- The value that the counter of a running timer shows after one more tick. -/
def upcoming (c : Clock) : Count := .ofNat (c.now + 1 - c.origin)

/-- Whether the next tick completes a turn of the counter. -/
def overflowsNext (c : Clock) : Bool := c.running && c.upcoming == .ofNat 0

/-- Whether the counter shows the armed value after the next tick. -/
def matchesNext (c : Clock) : Bool := c.running && c.compare == some c.upcoming

/-- One tick, and whether it raises a flag. -/
def tick (c : Clock) : Bool × Clock :=
  (c.overflowsNext || c.matchesNext,
    { c with
      now := c.now + 1
      overflowPending := c.overflowPending || c.overflowsNext
      comparePending := c.comparePending || c.matchesNext })

/-- Ticks while the limit is ahead, up to the first tick that raises a flag. The answer is whether
there was one. -/
def tickUntil (limit : Nat) (c : Clock) : Bool × Clock :=
  if c.now < limit then
    if c.tick.1 then (true, c.tick.2) else tickUntil limit c.tick.2
  else (false, c)
termination_by limit - c.now
decreasing_by
  change limit - (c.now + 1) < limit - c.now
  omega

/-! ### The way to a value -/

theorem ticksTo_eq_one_iff {n : Nat} {value : Count} :
    ticksTo (.ofNat n) value = 1 ↔ value = .ofNat (n + 1) := by
  have h_value := value.isLt
  simp only [ticksTo, Fin.lt_def, Fin.ext_iff, Count.ofNat, ticksPerWrap] at *
  split <;> omega

/-- The way is shorter after a tick that has not come to its end. -/
theorem ticksTo_succ {n : Nat} {value : Count} (h : value ≠ .ofNat (n + 1)) :
    ticksTo (.ofNat n) value = ticksTo (.ofNat (n + 1)) value + 1 := by
  have h_value := value.isLt
  simp only [ticksTo, Fin.lt_def, ne_eq, Fin.ext_iff, Count.ofNat, ticksPerWrap] at *
  split <;> split <;> omega

/-- The way from a value to itself is a full turn. -/
theorem ticksTo_self (value : Count) : ticksTo value value = ticksPerWrap :=
  (if_neg (Nat.lt_irrefl value.val)).trans (Nat.add_sub_cancel_left _ _)

/-- The way to zero is the rest of the turn. -/
theorem ticksTo_zero (counter : Count) :
    ticksTo counter (.ofNat 0) = ticksPerWrap - counter.val := by
  rw [ticksTo, if_neg (show ¬counter < .ofNat 0 from Nat.not_lt_zero counter.val)]
  exact congrArg (· - counter.val) (Nat.zero_add ticksPerWrap)

/-! ### The next events, seen from one tick later -/

variable {c : Clock}

theorem upcoming_eq (h_origin : c.origin ≤ c.now) :
    c.upcoming = .ofNat (c.now - c.origin + 1) :=
  congrArg Count.ofNat (Nat.sub_add_comm h_origin)

theorem upcoming_eq_zero_iff (h_origin : c.origin ≤ c.now) :
    c.upcoming = .ofNat 0 ↔ c.overflowAt = c.now + 1 := by
  rw [upcoming_eq h_origin, eq_comm, ← ticksTo_eq_one_iff, ticksTo_zero, val_ofNat_ticks,
    overflowAt, Nat.add_left_cancel_iff]

theorem compare_eq_upcoming_iff (h_origin : c.origin ≤ c.now) :
    c.compare = some c.upcoming ↔ c.matchAt? = some (c.now + 1) := by
  rw [upcoming_eq h_origin, matchAt?]
  cases c.compare with
  | none => exact iff_of_false (Option.some_ne_none _).symm (Option.some_ne_none _).symm
  | some value =>
    rw [Option.map_some, Option.some.injEq, Option.some.injEq, Nat.add_left_cancel_iff,
      ticksTo_eq_one_iff]

/-- A tick raises the flag of an event if it comes to the time of the event. -/
theorem overflowsNext_eq (h_origin : c.origin ≤ c.now) (h_run : c.running = true) :
    c.overflowsNext = (some c.overflowAt == some (c.now + 1)) := by
  rw [overflowsNext, h_run, Bool.true_and, Bool.eq_iff_iff, beq_iff_eq, beq_iff_eq,
    upcoming_eq_zero_iff h_origin, Option.some.injEq]

theorem matchesNext_eq (h_origin : c.origin ≤ c.now) (h_run : c.running = true) :
    c.matchesNext = (c.matchAt? == some (c.now + 1)) := by
  rw [matchesNext, h_run, Bool.true_and, Bool.eq_iff_iff, beq_iff_eq, beq_iff_eq,
    compare_eq_upcoming_iff h_origin]

/-- The next event is the earlier one of the next overflow and the next match. -/
theorem eventAt_eq_iff {t : Nat} (h_before : t ≤ c.eventAt) :
    c.eventAt = t ↔ c.overflowAt = t ∨ c.matchAt? = some t := by
  unfold eventAt at *
  -- with no match to come, the overflow is the event
  cases h_match : c.matchAt? with
  | none => exact (or_iff_left nofun).symm
  | some s =>
    -- else it is the earlier of the two
    rw [h_match] at h_before
    simp only [Option.some.injEq] at *
    omega

theorem tick_raises_iff (h_origin : c.origin ≤ c.now) (h_run : c.running = true) :
    c.tick.1 = true ↔ c.eventAt = c.now + 1 := by
  rw [eventAt_eq_iff c.lt_eventAt, tick, Bool.or_eq_true, overflowsNext_eq h_origin h_run,
    matchesNext_eq h_origin h_run, beq_iff_eq, beq_iff_eq, Option.some.injEq]

/-- A tick that raises nothing moves time alone. -/
theorem tick_of_quiet (h_quiet : c.tick.1 = false) : c.tick.2 = { c with now := c.now + 1 } := by
  obtain ⟨h_overflow, h_match⟩ := Bool.or_eq_false_iff.1 h_quiet
  simp only [tick, h_overflow, h_match, Bool.or_false]

theorem overflowAt_tick (h_origin : c.origin ≤ c.now) (h_later : c.overflowAt ≠ c.now + 1) :
    c.tick.2.overflowAt = c.overflowAt := by
  have h_now : c.tick.2.now = c.now + 1 := rfl
  have h_next : c.tick.2.now < c.overflowAt := Nat.lt_of_le_of_ne c.lt_overflowAt h_later.symm
  have h_count := (count_of_lt_overflowAt (d := c.tick.2) h_origin rfl (Nat.le_succ _) h_next).2
  rw [overflowAt, h_count, overflowAt, h_now]
  rw [overflowAt] at h_next
  omega

theorem matchAt?_tick (h_origin : c.origin ≤ c.now) (h_later : c.matchAt? ≠ some (c.now + 1)) :
    c.tick.2.matchAt? = c.matchAt? := by
  rw [Ne, ← compare_eq_upcoming_iff h_origin, upcoming_eq h_origin] at h_later
  refine Option.map_congr fun value h_value => ?_
  have h_way := ticksTo_succ fun h_eq => h_later (h_eq ▸ h_value)
  change c.now + 1 + ticksTo (.ofNat (c.now + 1 - c.origin)) value = _
  rw [h_way, Nat.sub_add_comm h_origin]
  omega

/-- **One quiet tick.** A jump ends up the same from a tick later. -/
theorem reach_tick {limit : Nat} (h_origin : c.origin ≤ c.now) (h_limit : c.now < limit)
    (h_quiet : c.tick.1 = false) : c.tick.2.reach limit = c.reach limit := by
  have h_tick := tick_of_quiet h_quiet
  have h_later : { c.tick.2 with now := max c.tick.2.now limit } =
      { c with now := max c.now limit } := by
    rw [h_tick, Nat.max_eq_right h_limit, Nat.max_eq_right (Nat.le_of_lt h_limit)]
  cases h_run : c.running with
  | false =>
    -- a clock that stands still only moves to the limit
    rw [reach_of_stopped h_run, reach_of_stopped (c := c.tick.2) h_run, h_later]
  | true =>
    -- a tick that raises nothing leaves the event where it is
    have h_ne : c.eventAt ≠ c.now + 1 := fun h_eq =>
      Bool.noConfusion (h_quiet.symm.trans ((tick_raises_iff h_origin h_run).2 h_eq))
    rw [Ne, eventAt_eq_iff c.lt_eventAt, not_or] at h_ne
    have h_overflow := overflowAt_tick h_origin h_ne.1
    have h_match := matchAt?_tick h_origin h_ne.2
    have h_event : c.tick.2.eventAt = c.eventAt := by
      rw [eventAt, eventAt, h_overflow, h_match]
    rw [reach, reach, h_later, h_event, h_overflow, h_match, h_tick]

/-- **One tick that raises a flag** is the jump. -/
theorem reach_eq_tick {limit : Nat} (h_origin : c.origin ≤ c.now) (h_limit : c.now < limit)
    (h_raises : c.tick.1 = true) : c.reach limit = (true, c.tick.2) := by
  have h_run : c.running = true := by
    -- only a running clock raises flags
    by_contra h_run
    rw [tick, overflowsNext, matchesNext, Bool.eq_false_iff.2 h_run] at h_raises
    exact Bool.noConfusion h_raises
  have h_event := (tick_raises_iff h_origin h_run).1 h_raises
  rw [reach, if_pos ⟨h_run, h_event.symm ▸ h_limit⟩, h_event, ← overflowsNext_eq h_origin h_run,
    ← matchesNext_eq h_origin h_run]
  rfl

/-- A jump of time is the ticks up to its end. -/
theorem reach_eq_tickUntil (limit : Nat) (h_origin : c.origin ≤ c.now) :
    c.reach limit = c.tickUntil limit := by
  fun_induction tickUntil limit c with
  | case1 c h_limit h_raises =>
    -- the tick comes to the event
    exact reach_eq_tick h_origin h_limit h_raises
  | case2 c h_limit h_quiet ih =>
    -- a quiet tick, after which the rest of the way is the same
    have h_quiet := Bool.eq_false_iff.2 h_quiet
    rw [← reach_tick h_origin h_limit h_quiet]
    exact ih (Nat.le_succ_of_le h_origin)
  | case3 c h_limit =>
    -- there is no way left to go
    exact reach_of_le (Nat.le_of_not_lt h_limit)

/-! ### Values in a special place -/

/-- A jump that raises nothing goes to the limit. -/
theorem now_reach_of_quiet {limit : Nat} (h_quiet : (c.reach limit).1 = false) :
    (c.reach limit).2.now = max c.now limit := by
  unfold reach at *
  split at h_quiet
  · exact Bool.noConfusion h_quiet
  · rw [if_neg ‹_›]

/-- The value that the counter shows is matched after a full turn. -/
theorem matchAt?_of_shown (h_compare : c.compare = some (.ofNat (c.now - c.origin))) :
    c.matchAt? = some (c.now + ticksPerWrap) := by
  rw [matchAt?, h_compare, Option.map_some, ticksTo_self]

/-- A jump comes to the value that the counter shows if it goes over a full turn. -/
theorem comparePending_reach_of_shown (limit : Nat) (h_run : c.running = true)
    (h_compare : c.compare = some (.ofNat (c.now - c.origin))) :
    (c.reach limit).2.comparePending =
      (c.comparePending || decide ((c.reach limit).2.now = c.now + ticksPerWrap)) := by
  have h_match := matchAt?_of_shown h_compare
  have h_event := c.eventAt_le_overflowAt
  rw [overflowAt] at h_event
  unfold reach
  -- the compare value is the present counter, so the match is one turn away
  split
  · rename_i h_reached
    change (c.comparePending || c.matchAt? == some c.eventAt) =
      (c.comparePending || decide (c.eventAt = c.now + ticksPerWrap))
    rw [h_match]
    refine congrArg (c.comparePending || ·) (Bool.eq_iff_iff.2 ?_)
    rw [beq_iff_eq, Option.some.injEq, decide_eq_true_iff, eq_comm]
  · -- the limit comes before the match
    rename_i h_limit
    have h_before : ¬max c.now limit = c.now + ticksPerWrap := by
      have h_limit : limit < c.eventAt := Nat.lt_of_not_le fun h => h_limit ⟨h_run, h⟩
      simp only [ticksPerWrap] at *
      omega
    change c.comparePending = (c.comparePending || decide (max c.now limit = c.now + ticksPerWrap))
    rw [decide_eq_false h_before, Bool.or_false]

/-- Zero is matched at the overflow. -/
theorem reach_of_zero (limit : Nat) (h_run : c.running = true)
    (h_compare : c.compare = some (.ofNat 0)) :
    c.reach limit =
      if c.overflowAt ≤ limit then
        (true, { c with now := c.overflowAt, overflowPending := true, comparePending := true })
      else (false, { c with now := max c.now limit }) := by
  -- a value of zero matches with the overflow
  have h_match : c.matchAt? = some c.overflowAt := by
    rw [matchAt?, h_compare, Option.map_some, ticksTo_zero, val_ofNat_ticks, overflowAt]
  have h_event : c.eventAt = c.overflowAt := by
    rw [eventAt, h_match]
    exact Nat.min_self _
  simp only [reach, h_run, true_and, h_event, h_match, beq_self_eq_true, Bool.or_true]

/-! ### Jumps are ticks -/

/-- **Jumps are ticks.** Where the next turn is within 64 bits, a jump returns in either profile,
and time, both flags and the answer are what ticks one by one come to; if no tick up to the limit
raises a flag, time ends at the limit. A stopped timer raises none. A value that the counter shows
when it is armed is matched after a full turn and no jump finds it sooner, zero is matched at the
overflow, by the same jump, and a limit that is not ahead changes nothing. -/
theorem advanceUntil_ticks (h_origin : c.origin ≤ c.now)
    (h_fits : c.now + ticksPerWrap < Width.bits64.size) (limit : Nat) (p : Profile) :
    (advanceUntil limit).run p c = .ok (c.tickUntil limit).1 (c.tickUntil limit).2 ∧
    ((c.tickUntil limit).1 = false → (c.tickUntil limit).2.now = max c.now limit) ∧
    (c.running = false → c.tickUntil limit = (false, { c with now := max c.now limit })) ∧
    (c.running = true → c.compare = some (.ofNat (c.now - c.origin)) →
      c.nextCompare?.run p = .ok (some (c.now + ticksPerWrap)) ∧
      (c.tickUntil limit).2.comparePending =
        (c.comparePending || decide ((c.tickUntil limit).2.now = c.now + ticksPerWrap))) ∧
    (c.running = true → c.compare = some (.ofNat 0) →
      c.tickUntil limit =
        if c.overflowAt ≤ limit then
          (true, { c with now := c.overflowAt, overflowPending := true, comparePending := true })
        else (false, { c with now := max c.now limit })) ∧
    (limit ≤ c.now → (advanceUntil limit).run p c = .ok false c) := by
  have h_c : c.Fits := fits_of_lt h_origin h_fits
  have h_run := run_advanceUntil_of_fits h_c limit p
  rw [← reach_eq_tickUntil limit h_origin]
  refine ⟨h_run, now_reach_of_quiet, fun h_stopped => reach_of_stopped h_stopped limit,
    fun h_running h_shown => ⟨?_, comparePending_reach_of_shown limit h_running h_shown⟩,
    reach_of_zero limit, fun h_limit => ?_⟩
  · -- the next match of the present counter
    rw [run_nextCompare? h_c h_running, matchAt?_of_shown h_shown]
  · -- a limit in the past
    rw [h_run, reach_of_le h_limit]

/-- A timer that was just started and armed for zero: ticks and the jump come to both flags a full
turn later, and to neither one tick before that. -/
theorem advanceUntil_ticks_from_zero :
    let c : Clock := { now := 10, origin := 10, running := true, compare := some (.ofNat 0) }
    c.origin ≤ c.now ∧ c.now + ticksPerWrap < Width.bits64.size ∧
    (advanceUntil 70000).run .debug c = .ok (c.tickUntil 70000).1 (c.tickUntil 70000).2 ∧
    c.tickUntil 70000 =
      (true, { c with now := 65546, overflowPending := true, comparePending := true }) ∧
    c.nextCompare?.run .debug = .ok (some 65546) ∧
    (c.tickUntil 65545).2.comparePending = false := by
  intro c
  have h_origin : c.origin ≤ c.now := by decide
  have h_fits : c.now + ticksPerWrap < Width.bits64.size := by decide
  obtain ⟨h_run, -, -, h_shown, h_zero, -⟩ := advanceUntil_ticks h_origin h_fits 70000 .debug
  obtain ⟨-, -, -, -, h_before, -⟩ := advanceUntil_ticks h_origin h_fits 65545 .debug
  have h_overflow : c.overflowAt = 65546 := by decide
  have h_turn : c.now + ticksPerWrap = 65546 := by decide
  refine ⟨h_origin, h_fits, h_run, ?_, ?_, ?_⟩
  · rw [h_zero rfl rfl, h_overflow, if_pos (by decide)]
  · rw [(h_shown rfl rfl).1, h_turn]
  · rw [h_before rfl rfl, h_overflow, if_neg (by decide)]

end Clock

end ServoPulse
