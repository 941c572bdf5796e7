import ServoPulse.Proofs.Success
import ServoPulse.Simulation.Bench

/-!
# How simulated time passes

The counter of a running clock is read off `Clock.turns` and `Clock.count`, the whole
turns since the timer started and the ticks of the present one. `Clock.reach` is one jump
of time as a plain function. A jump that overflows no sum of times is that function in
either profile (`run_advanceUntil_of_fits`), and in the `debug` profile every jump that
returns is such a one (`fits_of_run_advanceUntil`).

What a longer stretch of time does to a clock is `Clock.Passes`: time moves forward, the
timer stays as it is set, and the overflow flag rises exactly when a turn is completed.
-/

namespace ServoPulse

namespace Clock

/-- Whole turns of the counter since the timer started. -/
def turns (c : Clock) : Nat := (c.now - c.origin) / ticksPerWrap

/-- Ticks of the present turn of the counter. -/
def count (c : Clock) : Nat := (c.now - c.origin) % ticksPerWrap

/-- The time at which the present turn of the counter ends. -/
def overflowAt (c : Clock) : Nat := c.now + (ticksPerWrap - c.count)

/-- The time at which the counter next shows the armed value. -/
def matchAt? (c : Clock) : Option Nat :=
  c.compare.map fun value => c.now + ticksTo (.ofNat (c.now - c.origin)) value

/-- The time of the next event of a running timer. -/
def eventAt (c : Clock) : Nat :=
  match c.matchAt? with
  | some t => min c.overflowAt t
  | none => c.overflowAt

/-- No sum of times that the next jump of a running timer computes overflows. -/
structure Fits (c : Clock) : Prop where
  origin_le : c.running = true → c.origin ≤ c.now
  overflow_lt : c.running = true → c.overflowAt < Width.bits64.size
  match_lt : c.running = true → ∀ t ∈ c.matchAt?, t < Width.bits64.size

/-- One jump of time: to the next event of a running timer, or to the limit. -/
def reach (c : Clock) (limit : Nat) : Bool × Clock :=
  if c.running = true ∧ c.eventAt ≤ limit then
    (true,
      { c with
        now := c.eventAt
        overflowPending := c.overflowPending || some c.overflowAt == some c.eventAt
        comparePending := c.comparePending || c.matchAt? == some c.eventAt })
  else (false, { c with now := max c.now limit })

/-! ### The counter -/

theorem count_lt (c : Clock) : c.count < ticksPerWrap := Nat.mod_lt _ (by decide)

theorem lt_overflowAt (c : Clock) : c.now < c.overflowAt := by
  have h := c.count_lt
  unfold overflowAt
  omega

theorem lt_eventAt (c : Clock) : c.now < c.eventAt := by
  have h₁ := c.lt_overflowAt
  unfold eventAt matchAt?
  cases c.compare with
  | none => exact h₁
  | some value =>
    have h₂ := ticksTo_pos (.ofNat (c.now - c.origin)) value
    simp only [Option.map_some]
    omega

theorem eventAt_le_overflowAt (c : Clock) : c.eventAt ≤ c.overflowAt := by
  unfold eventAt
  split
  · exact Nat.min_le_left _ _
  · exact Nat.le_refl _

theorem val_ofNat_ticks (c : Clock) : (Count.ofNat (c.now - c.origin)).val = c.count := rfl

/-- A compare value that the counter has yet to reach in this turn is the next event. -/
theorem next_of_ahead {c : Clock} {value : Count} (h_compare : c.compare = some value)
    (h_ahead : c.count < value.val) :
    c.matchAt? = some (c.now + (value.val - c.count)) ∧
      c.eventAt = c.now + (value.val - c.count) ∧ c.eventAt < c.overflowAt := by
  -- ahead, so the value is met before the counter is round again
  have h_match : c.matchAt? = some (c.now + (value.val - c.count)) := by
    have h_lt : Count.ofNat (c.now - c.origin) < value := h_ahead
    rw [matchAt?, h_compare, Option.map_some, ticksTo, if_pos h_lt, val_ofNat_ticks]
  -- the counter is round again later than at the value
  have h_overflow : c.now + (value.val - c.count) < c.overflowAt := by
    have h_value := value.isLt
    rw [overflowAt]
    omega
  -- so the first of the two events is the match
  have h_event : c.eventAt = c.now + (value.val - c.count) := by
    rw [eventAt, h_match]
    exact Nat.min_eq_right (Nat.le_of_lt h_overflow)
  exact ⟨h_match, h_event, h_event ▸ h_overflow⟩

/-- The turn of the counter ends a whole number of turns after the timer started. -/
theorem overflowAt_eq {c : Clock} (h : c.origin ≤ c.now) :
    c.overflowAt = c.origin + ticksPerWrap * (c.turns + 1) := by
  have h₁ := Nat.div_add_mod (c.now - c.origin) ticksPerWrap
  have h₂ := c.count_lt
  unfold overflowAt turns count at *
  simp only [ticksPerWrap] at *
  omega

/-- Within a turn of the counter, the ticks of the turn go up as time does. -/
theorem count_of_lt_overflowAt {c d : Clock} (h_origin : c.origin ≤ c.now)
    (h_same : d.origin = c.origin) (h_le : c.now ≤ d.now) (h_lt : d.now < c.overflowAt) :
    d.turns = c.turns ∧ d.count = c.count + (d.now - c.now) := by
  have h_eq := overflowAt_eq h_origin
  rw [turns, turns, count, count, h_same]
  rw [turns] at h_eq
  simp only [ticksPerWrap] at *
  omega

theorem run_counter {c : Clock} (hc : c.Fits) (hr : c.running = true) (p : Profile) :
    c.counter.run p = .ok (.ofNat (c.now - c.origin)) := by
  rw [counter, if_pos hr, Checked.run_map,
    Checked.run_sub_of_le (hc.origin_le hr) (hc.overflow_lt hr |> Nat.lt_trans c.lt_overflowAt)]

/-! ### One jump -/

theorem run_nextOverflow? {c : Clock} (hc : c.Fits) (hr : c.running = true) (p : Profile) :
    c.nextOverflow?.run p = .ok (some c.overflowAt) := by
  rw [nextOverflow?, if_pos hr, Checked.run_bind, run_counter hc hr]
  simp only [Checked.run_map, val_ofNat_ticks]
  rw [Checked.run_add_of_lt (hc.overflow_lt hr)]
  rfl

theorem run_nextCompare? {c : Clock} (hc : c.Fits) (hr : c.running = true) (p : Profile) :
    c.nextCompare?.run p = .ok c.matchAt? := by
  have hm := hc.match_lt hr
  unfold nextCompare? matchAt? at *
  cases h : c.compare with
  | none => rfl
  | some value =>
    rw [h] at hm
    -- the value is met within the turn or in the next one
    simp only [Option.map_some, Option.mem_some_iff, forall_eq'] at hm
    simp only [if_pos hr, Checked.run_bind, run_counter hc hr, Checked.run_map]
    rw [Checked.run_add_of_lt hm]
    rfl

theorem earlier?_eq_eventAt (c : Clock) :
    earlier? (some c.overflowAt) c.matchAt? = some c.eventAt := by
  unfold eventAt
  cases c.matchAt? <;> rfl

/-- **A jump that fits.** Both profiles agree with the plain function. -/
theorem run_advanceUntil_of_fits {c : Clock} (hc : c.Fits) (limit : Nat) (p : Profile) :
    (advanceUntil limit).run p c = .ok (c.reach limit).1 (c.reach limit).2 := by
  unfold advanceUntil reach
  rw [Action.run_get_bind]
  -- a running timer has an overflow and perhaps a match, both computed without a trap
  by_cases hr : c.running = true
  · rw [Action.run_bind, Action.run_liftM, run_nextOverflow? hc hr]
    simp only []
    rw [Action.run_bind, Action.run_liftM, run_nextCompare? hc hr]
    simp only [earlier?_eq_eventAt, hr, true_and]
    -- the first of them is met, or the limit comes before it
    by_cases hl : c.eventAt ≤ limit
    · simp only [if_pos hl]
      rfl
    · simp only [if_neg hl]
      rfl
  · -- a timer that stands still has no events
    have ho : c.nextOverflow?.run p = .ok none := by
      rw [nextOverflow?, if_neg hr]
      rfl
    have hm : c.nextCompare?.run p = .ok none := by
      unfold nextCompare?
      cases c.compare with
      | none => rfl
      | some value =>
        simp only [if_neg hr]
        rfl
    rw [Action.run_bind, Action.run_liftM, ho]
    simp only []
    rw [Action.run_bind, Action.run_liftM, hm]
    simp only [hr]
    rfl

theorem run_counter_debug_iff {c : Clock} (hr : c.running = true) {n : Count} :
    c.counter.run .debug = .ok n ↔ c.origin ≤ c.now ∧ .ofNat (c.now - c.origin) = n := by
  rw [counter, if_pos hr, Checked.run_map_eq_ok_iff]
  simp only [Checked.run_sub_debug_iff]
  exact ⟨fun ⟨_, ⟨h, rfl⟩, hn⟩ => ⟨h, hn⟩, fun ⟨h, hn⟩ => ⟨_, ⟨h, rfl⟩, hn⟩⟩

theorem fits_of_run_advanceUntil {c c' : Clock} {limit : Nat} {event : Bool}
    (h : (advanceUntil limit).run .debug c = .ok event c') : c.Fits := by
  rw [advanceUntil, Action.run_get_bind, Action.run_liftM_bind_eq_ok_iff] at h
  obtain ⟨overflow?, ho, h⟩ := h
  obtain ⟨compare?, hm, -⟩ := Action.run_liftM_bind_eq_ok_iff.1 h
  -- the reading says that the origin is not ahead and the overflow in range
  have h_overflow (hr : c.running = true) :
      c.origin ≤ c.now ∧ c.overflowAt < Width.bits64.size := by
    rw [nextOverflow?, if_pos hr, Checked.run_bind_eq_ok_iff] at ho
    obtain ⟨n, hn, ho⟩ := ho
    obtain ⟨h_origin, rfl⟩ := (run_counter_debug_iff hr).1 hn
    obtain ⟨_, h_add, -⟩ := Checked.run_map_eq_ok_iff.1 ho
    exact ⟨h_origin, (Checked.run_add_debug_iff.1 h_add).1⟩
  refine ⟨fun hr => (h_overflow hr).1, fun hr => (h_overflow hr).2, fun hr t ht => ?_⟩
  obtain ⟨value, hv, rfl⟩ := Option.map_eq_some_iff.1 ht
  -- the match is computed from the same reading
  rw [nextCompare?, hv] at hm
  simp only [if_pos hr] at hm
  obtain ⟨n, hn, hm⟩ := Checked.run_bind_eq_ok_iff.1 hm
  obtain ⟨-, rfl⟩ := (run_counter_debug_iff hr).1 hn
  obtain ⟨_, h_add, -⟩ := Checked.run_map_eq_ok_iff.1 hm
  exact (Checked.run_add_debug_iff.1 h_add).1

/-- **A jump that returns.** In the `debug` profile it fits, and is the plain function. -/
theorem run_advanceUntil_debug_iff {c c' : Clock} {limit : Nat} {event : Bool} :
    (advanceUntil limit).run .debug c = .ok event c' ↔
      c.Fits ∧ c.reach limit = (event, c') := by
  -- a debug run returns only when nothing traps
  constructor
  · intro h
    have hc := fits_of_run_advanceUntil h
    rw [run_advanceUntil_of_fits hc, EStateM.Result.ok.injEq] at h
    exact ⟨hc, Prod.ext h.1 h.2⟩
  · rintro ⟨hc, h⟩
    rw [run_advanceUntil_of_fits hc, h]

/-- The jump to a compare value that the counter has yet to reach in this turn raises the compare
flag alone. -/
theorem reach_of_ahead {c : Clock} {value : Count} {limit : Nat} (h_run : c.running = true)
    (h_compare : c.compare = some value) (h_ahead : c.count < value.val)
    (h_limit : c.now + (value.val - c.count) ≤ limit) :
    c.reach limit =
      (true, { c with now := c.now + (value.val - c.count), comparePending := true }) := by
  -- the match is the first event and the other one is later
  obtain ⟨h_match, h_event, h_overflow⟩ := next_of_ahead h_compare h_ahead
  have h_ne : (some c.overflowAt == some c.eventAt) = false :=
    beq_eq_false_iff_ne.2 fun h_eq => Nat.ne_of_gt h_overflow (Option.some.inj h_eq)
  have h_eq : (c.matchAt? == some c.eventAt) = true := by
    rw [h_match, h_event]
    exact beq_self_eq_true _
  rw [reach, if_pos ⟨h_run, h_event.symm ▸ h_limit⟩, h_ne, h_eq, Bool.or_false, Bool.or_true,
    h_event]

/-- Before the counter gets to the compare value, nothing happens. -/
theorem reach_of_not_reached {c : Clock} {value : Count} {limit : Nat}
    (h_compare : c.compare = some value) (h_ahead : c.count < value.val)
    (h_limit : limit < c.now + (value.val - c.count)) :
    c.reach limit = (false, { c with now := max c.now limit }) := by
  obtain ⟨-, h_event, -⟩ := next_of_ahead h_compare h_ahead
  rw [reach, if_neg fun h_and => Nat.not_le_of_lt (h_event.symm ▸ h_limit) h_and.2]

/-- Time that ends before the counter gets to the compare value leaves it short of the value. -/
theorem count_reach_lt {c : Clock} {value : Count} {limit : Nat} (h_origin : c.origin ≤ c.now)
    (h_compare : c.compare = some value) (h_ahead : c.count < value.val)
    (h_limit : limit < c.now + (value.val - c.count)) : (c.reach limit).2.count < value.val := by
  obtain ⟨-, h_event, h_overflow⟩ := next_of_ahead h_compare h_ahead
  rw [reach_of_not_reached h_compare h_ahead h_limit]
  -- the value is met within the turn, so the turn is not over yet
  obtain ⟨-, h_count⟩ := count_of_lt_overflowAt (d := { c with now := max c.now limit })
    h_origin rfl (Nat.le_max_left _ _) (show max c.now limit < c.overflowAt by omega)
  rw [h_count]
  change c.count + (max c.now limit - c.now) < value.val
  omega

/-- With no compare match to come, the next event is the end of the turn, and the jump to it raises
the overflow flag alone. -/
theorem reach_of_no_match {c : Clock} {limit : Nat} (h_run : c.running = true)
    (h_match : c.matchAt? = none) (h_limit : c.eventAt ≤ limit) :
    c.reach limit = (true, { c with now := c.overflowAt, overflowPending := true }) := by
  have h_event : c.eventAt = c.overflowAt := by rw [eventAt, h_match]
  have h_none : (none == some c.overflowAt) = false := rfl
  rw [reach, if_pos ⟨h_run, h_limit⟩, h_match, h_event, beq_self_eq_true, h_none, Bool.or_true,
    Bool.or_false]

/-! ### A stretch of time -/

/-- What the passing of time does to a clock. -/
structure Passes (c c' : Clock) : Prop where
  origin_eq : c'.origin = c.origin
  running_eq : c'.running = c.running
  compare_eq : c'.compare = c.compare
  starts_eq : c'.starts = c.starts
  now_le : c.now ≤ c'.now
  /-- The overflow flag rises when a turn of the counter is completed. -/
  overflow_iff : c'.overflowPending = true ↔
    c.overflowPending = true ∨ c.running = true ∧ c.turns < c'.turns

theorem Passes.turns_le {c c' : Clock} (h : Passes c c') : c.turns ≤ c'.turns := by
  have h₁ := h.now_le
  rw [turns, turns, h.origin_eq]
  exact Nat.div_le_div_right (by omega)

/-- A stretch of time within a turn of the counter raises no flag but that of the compare
channel. -/
theorem Passes.eq_of_lt_overflowAt {c c' : Clock} (h : Passes c c') (h_origin : c.origin ≤ c.now)
    (h_lt : c'.now < c.overflowAt) :
    c' = { c with now := c'.now, comparePending := c'.comparePending } := by
  -- no turn is completed, so the overflow flag is where it was
  have h_turns := (count_of_lt_overflowAt h_origin h.origin_eq h.now_le h_lt).1
  have h_overflow : c'.overflowPending = c.overflowPending := by
    refine Bool.eq_iff_iff.2 (h.overflow_iff.trans (or_iff_left fun h_turn => ?_))
    exact Nat.lt_irrefl _ (h_turns ▸ h_turn.2)
  -- the fields of a clock are these seven, and only two of them change
  calc c' = ⟨c'.now, c'.origin, c'.running, c'.compare, c'.overflowPending, c'.comparePending,
        c'.starts⟩ := rfl
    _ = { c with now := c'.now, comparePending := c'.comparePending } := by
      rw [h.origin_eq, h.running_eq, h.compare_eq, h_overflow, h.starts_eq]

instance : IsPreorder Clock Passes where
  refl c := ⟨rfl, rfl, rfl, rfl, Nat.le_refl _, by simp⟩
  trans c₁ c₂ c₃ h₁₂ h₂₃ := by
    refine ⟨h₂₃.origin_eq.trans h₁₂.origin_eq, h₂₃.running_eq.trans h₁₂.running_eq,
      h₂₃.compare_eq.trans h₁₂.compare_eq, h₂₃.starts_eq.trans h₁₂.starts_eq,
      Nat.le_trans h₁₂.now_le h₂₃.now_le, ?_⟩
    have h₁ := h₁₂.turns_le
    have h₂ := h₂₃.turns_le
    rw [h₂₃.overflow_iff, h₁₂.overflow_iff, h₁₂.running_eq]
    constructor
    · rintro ((ho | ⟨hr, ht⟩) | ⟨hr, ht⟩)
      · exact .inl ho
      · exact .inr ⟨hr, by omega⟩
      · exact .inr ⟨hr, by omega⟩
    · rintro (ho | ⟨hr, ht⟩)
      · exact .inl (.inl ho)
      · -- where the first stretch ends, the turn is completed or not
        by_cases h : c₁.turns < c₂.turns
        · exact .inl (.inr ⟨hr, h⟩)
        · exact .inr ⟨hr, by omega⟩

theorem passes_reach {c : Clock} (hc : c.Fits) (limit : Nat) : Passes c (c.reach limit).2 := by
  unfold reach
  split
  · rename_i h
    obtain ⟨hr, -⟩ := h
    have h_origin := hc.origin_le hr
    have h_lt := c.lt_eventAt
    have h_le := c.eventAt_le_overflowAt
    have h_eq := overflowAt_eq h_origin
    -- the clock stops at the event, and what has come up is what that event is
    refine ⟨rfl, rfl, rfl, rfl, Nat.le_of_lt h_lt, ?_⟩
    simp only [Bool.or_eq_true, beq_iff_eq, Option.some.injEq, hr, true_and]
    refine or_congr Iff.rfl ?_
    -- the jump goes no further than the end of the turn
    simp only [turns, ticksPerWrap] at *
    omega
  · rename_i h
    -- the clock stops at the limit, before any turn is completed
    refine ⟨rfl, rfl, rfl, rfl, Nat.le_max_left _ _, ?_⟩
    simp only [not_and, Nat.not_le] at h
    -- the limit comes before the end of the turn
    have h_same (hr : c.running = true) :
        ¬c.turns < Clock.turns { c with now := max c.now limit } := by
      have h_origin := hc.origin_le hr
      have h_lt := h hr
      have h_le := c.eventAt_le_overflowAt
      have h_now := c.lt_overflowAt
      have h_eq := overflowAt_eq h_origin
      simp only [turns, ticksPerWrap] at *
      omega
    simp only [iff_self_or, and_imp]
    exact fun hr ht => absurd ht (h_same hr)

theorem keeps_advanceUntil (limit : Nat) :
    Action.Keeps Passes .debug (advanceUntil limit) := by
  intro c event c' h
  obtain ⟨hc, h_reach⟩ := run_advanceUntil_debug_iff.1 h
  have h_passes := passes_reach hc limit
  rwa [h_reach] at h_passes

theorem keeps_passUntil (limit : Nat) : Action.Keeps Passes .debug (passUntil limit) :=
  Action.Keeps.repeatWhile (keeps_advanceUntil limit) _

/-- A timer that stands still comes to no event. -/
theorem reach_of_stopped {c : Clock} (h : c.running = false) (limit : Nat) :
    c.reach limit = (false, { c with now := max c.now limit }) :=
  if_neg fun h_and => Bool.noConfusion (h.symm.trans h_and.1)

/-- No time passes up to a limit that is not ahead. -/
theorem reach_of_le {c : Clock} {limit : Nat} (h : limit ≤ c.now) : c.reach limit = (false, c) := by
  have h_event := c.lt_eventAt
  rw [reach, if_neg fun h_and => absurd h_and.2 (by omega), Nat.max_eq_left h]

/-- Jumps go on up to the limit, as long as there are enough of them: each goes forward. -/
theorem now_of_run_repeatWhile {c c' : Clock} {limit fuel : Nat} (h_fuel : limit < c.now + fuel)
    (h_run : (Action.repeatWhile (advanceUntil limit) fuel).run .debug c = .ok () c') :
    c'.now = max c.now limit := by
  induction fuel generalizing c with
  | zero =>
    obtain ⟨-, rfl⟩ := Action.run_pure_eq_ok_iff.1 h_run
    -- the fuel is more than the time that is left, so the loop never runs out of it
    exact (Nat.max_eq_left (Nat.le_of_lt h_fuel)).symm
  | succ fuel ih =>
    obtain ⟨event, d, h_first, h_rest⟩ := Action.run_bind_eq_ok_iff.1 h_run
    obtain ⟨-, h_reach⟩ := run_advanceUntil_debug_iff.1 h_first
    have h_next := c.lt_eventAt
    -- an event before the limit is reached and the loop goes on
    by_cases h_event : c.running = true ∧ c.eventAt ≤ limit
    · rw [reach, if_pos h_event] at h_reach
      obtain ⟨rfl, rfl⟩ := Prod.mk.inj h_reach
      have h_more : limit < c.eventAt + fuel := by omega
      refine (ih h_more h_rest).trans ?_
      change max c.eventAt limit = max c.now limit
      rw [Nat.max_eq_right h_event.2, Nat.max_eq_right (by omega)]
    · -- the limit comes first and the loop ends there
      rw [reach, if_neg h_event] at h_reach
      obtain ⟨rfl, rfl⟩ := Prod.mk.inj h_reach
      obtain ⟨-, rfl⟩ := Action.run_pure_eq_ok_iff.1 h_rest
      rfl

theorem now_of_run_passUntil {c c' : Clock} {limit : Nat} (h_limit : limit < instants)
    (h_run : (passUntil limit).run .debug c = .ok () c') : c'.now = max c.now limit :=
  now_of_run_repeatWhile (Nat.lt_add_left c.now h_limit) h_run

theorem passUntil_eq_of_le {c c' : Clock} {limit : Nat}
    (h_run : (passUntil limit).run .debug c = .ok () c') (h : limit ≤ c.now) : c' = c := by
  change Action.run (do if ← advanceUntil limit then _) .debug c = .ok () c' at h_run
  obtain ⟨event, t, h_first, h_rest⟩ := Action.run_bind_eq_ok_iff.1 h_run
  obtain ⟨-, h_reach⟩ := run_advanceUntil_debug_iff.1 h_first
  rw [reach_of_le h] at h_reach
  obtain ⟨rfl, rfl⟩ := Prod.mk.inj h_reach
  exact (Action.run_pure_eq_ok_iff.1 h_rest).2.symm

end Clock

end ServoPulse
